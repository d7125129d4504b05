namespace Retention

theorem Except.bind_eq_ok {ε α β : Type} {x : Except ε α} {f : α → Except ε β} {b : β} :
    x >>= f = .ok b ↔ ∃ a, x = .ok a ∧ f a = .ok b := by
  cases x with
  | error error =>
    constructor
    · intro h
      cases h
    · rintro ⟨a, h, -⟩
      cases h
  | ok a => exact ⟨fun h => ⟨a, rfl, h⟩, fun ⟨_, ha, h⟩ => Except.ok.inj ha ▸ h⟩

theorem Except.bind_eq_error {ε α β : Type} {x : Except ε α} {f : α → Except ε β} {error : ε} :
    x >>= f = .error error ↔ x = .error error ∨ ∃ a, x = .ok a ∧ f a = .error error := by
  cases x with
  | error first =>
    have bound : (Except.error first : Except ε α) >>= f = .error first := rfl
    simp [bound]
  | ok a =>
    have bound : (Except.ok a : Except ε α) >>= f = f a := rfl
    simp [bound]

/-- A test of the result that succeeds shows the result. -/
theorem Except.exists_of_test {ε α : Type} {x : Except ε α} {test : α → Prop} [DecidablePred test]
    (h : x.map (fun a => decide (test a)) = .ok true) : ∃ a, x = .ok a ∧ test a := by
  cases x with
  | error error => cases h
  | ok a => exact ⟨a, rfl, of_decide_eq_true (Except.ok.inj h)⟩

/-- What a step that may fail preserves, a whole run preserves. -/
theorem foldlM_preserves {α σ ε : Type} {step : σ → α → Except ε σ} {motive : σ → Prop}
    (keep : ∀ s a t, motive s → step s a = .ok t → motive t) {items : List α} {s t : σ} (hs : motive s)
    (h : items.foldlM step s = .ok t) : motive t := by
  induction items generalizing s with
  | nil => exact Except.ok.inj h ▸ hs
  | cons item rest ih =>
    rw [List.foldlM_cons] at h
    obtain ⟨next, hn, hr⟩ := Except.bind_eq_ok.mp h
    exact ih (keep s item next hs hn) hr

/-- A run fails only in the way that its steps do. -/
theorem foldlM_fails {α σ ε : Type} {step : σ → α → Except ε σ} {known : ε}
    (only : ∀ s a error, step s a = .error error → error = known) {items : List α} {s : σ} {error : ε}
    (h : items.foldlM step s = .error error) : error = known := by
  induction items generalizing s with
  | nil => cases h
  | cons item rest ih =>
    rw [List.foldlM_cons] at h
    cases Except.bind_eq_error.mp h with
    | inl here => exact only s item error here
    | inr later =>
      obtain ⟨next, -, hr⟩ := later
      exact ih hr

/-- A run that fails does so at one of its items, after a run without a failure. -/
theorem exists_failing {α σ ε : Type} {step : σ → α → Except ε σ} {items : List α} {s : σ} {error : ε}
    (h : items.foldlM step s = .error error) :
    ∃ front item rest mid, items = front ++ item :: rest ∧ front.foldlM step s = .ok mid ∧
      step mid item = .error error := by
  induction items generalizing s with
  | nil => cases h
  | cons item rest ih =>
    rw [List.foldlM_cons] at h
    cases Except.bind_eq_error.mp h with
    | inl here => exact ⟨[], item, rest, s, rfl, rfl, here⟩
    | inr later =>
      obtain ⟨next, taken, failed⟩ := later
      obtain ⟨front, other, rest, mid, rfl, run, refused⟩ := ih failed
      refine ⟨item :: front, other, rest, mid, rfl, ?_, refused⟩
      rw [List.foldlM_cons]
      exact Except.bind_eq_ok.mpr ⟨next, taken, run⟩

/-- Questions that are all answered are answered together. -/
theorem mapM_eq_ok {ε α β γ : Type} {ask : β → Except ε γ} {name : α → β} {answer : α → γ} {items : List α}
    (h : ∀ a ∈ items, ask (name a) = .ok (answer a)) :
    (items.map name).mapM ask = .ok (items.map answer) := by
  induction items with
  | nil => rfl
  | cons a rest ih =>
    have hr := ih fun b hb => h b (List.mem_cons_of_mem _ hb)
    rw [List.map_cons, List.mapM_cons, h a List.mem_cons_self, hr]
    rfl

end Retention
