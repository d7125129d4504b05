import Mathlib.Data.List.Nodup
import Retention.Graph.Digraph

namespace Retention.Digraph

variable {g : Digraph} {u v w : Nat} {through front back : List Nat}

theorem Walk.append (h : g.Walk u v front) (k : g.Walk v w (v :: back)) :
    g.Walk u w (front ++ back) := by
  induction h with
  | single v => exact k
  | cons edge _ ih => exact .cons edge (ih k)

theorem Walk.snoc (h : g.Walk u v through) (edge : g.Edge v w) : g.Walk u w (through ++ [w]) :=
  h.append (.cons edge (.single w))

theorem Walk.last_step (h : g.Walk u w through) :
    (u = w ∧ through = [w]) ∨ ∃ v front, g.Walk u v front ∧ g.Edge v w ∧ through = front ++ [w] := by
  induction h with
  | single w => exact .inl ⟨rfl, rfl⟩
  | @cons u v w rest edge walk ih =>
    right
    rcases ih with ⟨rfl, rfl⟩ | ⟨p, front, hw, he, rfl⟩
    · exact ⟨u, [u], .single u, edge, rfl⟩
    · exact ⟨p, u :: front, .cons edge hw, he, rfl⟩

/-- Induction along a walk from its fixed start: what holds at the start and passes every edge holds
at the end. -/
theorem Walk.from_start {motive : Nat → List Nat → Prop} (start : motive u [u])
    (step : ∀ v w through, g.Walk u v through → g.Edge v w → motive v through →
      motive w (through ++ [w]))
    (h : g.Walk u v through) : motive v through := by
  induction hn : through.length using Nat.strongRecOn generalizing v through with
  | ind n ih =>
    rcases h.last_step with ⟨rfl, rfl⟩ | ⟨p, front, hw, he, rfl⟩
    · exact start
    · have shorter : front.length < n := by
        rw [← hn, List.length_append, List.length_singleton]
        omega
      exact step p v front hw he (ih _ shorter hw rfl)

/-- A walk can be cut down to where it first meets one of its vertices. -/
theorem Walk.cut (h : g.Walk u w through) (hv : v ∈ through) :
    ∃ front, g.Walk u v front ∧ ∀ x ∈ front, x ∈ through := by
  induction h with
  | single w =>
    obtain rfl := List.mem_singleton.mp hv
    exact ⟨[v], .single v, fun x hx => hx⟩
  | @cons u p w rest edge walk ih =>
    rcases List.mem_cons.mp hv with rfl | hv
    · exact ⟨[v], .single v, by simp⟩
    · obtain ⟨front, hf, sub⟩ := ih hv
      refine ⟨u :: front, .cons edge hf, ?_⟩
      intro x hx
      rcases List.mem_cons.mp hx with rfl | hx
      · exact List.mem_cons_self
      · exact List.mem_cons_of_mem _ (sub x hx)

theorem Walk.rest (h : g.Walk u w through) (hv : v ∈ through) :
    ∃ back, g.Walk v w back ∧ back <:+ through := by
  induction h with
  | single w =>
    obtain rfl := List.mem_singleton.mp hv
    exact ⟨[v], .single v, List.suffix_refl _⟩
  | @cons u p w rest edge walk ih =>
    rcases List.mem_cons.mp hv with rfl | hv
    · exact ⟨v :: rest, .cons edge walk, List.suffix_refl _⟩
    · obtain ⟨back, hb, suffix⟩ := ih hv
      exact ⟨back, hb, suffix.trans (List.suffix_cons u rest)⟩

/-- Where a walk leads, one without repetitions leads through some of the same vertices. -/
theorem Walk.simple (h : g.Walk u v through) :
    ∃ short, g.Walk u v short ∧ short.Nodup ∧ ∀ x ∈ short, x ∈ through := by
  induction h with
  | single v => exact ⟨[v], .single v, List.nodup_singleton v, fun x hx => hx⟩
  | @cons u p w rest edge walk ih =>
    obtain ⟨short, hs, nodup, sub⟩ := ih
    by_cases hu : u ∈ short
    · obtain ⟨back, hb, suffix⟩ := hs.rest hu
      refine ⟨back, hb, nodup.sublist suffix.sublist, ?_⟩
      intro x hx
      exact List.mem_cons_of_mem _ (sub x (suffix.mem hx))
    · refine ⟨u :: short, .cons edge hs, List.nodup_cons.mpr ⟨hu, nodup⟩, ?_⟩
      intro x hx
      rcases List.mem_cons.mp hx with rfl | hx
      · exact List.mem_cons_self
      · exact List.mem_cons_of_mem _ (sub x hx)

theorem Reaches.refl (g : Digraph) (v : Nat) : g.Reaches v v := ⟨[v], .single v⟩

theorem Reaches.tail (h : g.Reaches u v) (edge : g.Edge v w) : g.Reaches u w := by
  obtain ⟨through, walk⟩ := h
  exact ⟨_, walk.snoc edge⟩

theorem Reaches.trans (h : g.Reaches u v) (k : g.Reaches v w) : g.Reaches u w := by
  obtain ⟨through, walk⟩ := k
  exact walk.from_start (motive := fun w _ => g.Reaches u w) h fun _ _ _ _ edge reached => reached.tail edge

/-- A set that holds the start and is closed under edges holds all that is reached. -/
theorem Reaches.mem_of_closed {s : Nat → Prop} (h : g.Reaches u v) (hu : s u)
    (closed : ∀ a b, s a → g.Edge a b → s b) : s v := by
  obtain ⟨through, walk⟩ := h
  exact walk.from_start (motive := fun w _ => s w) hu fun a b _ _ edge ha => closed a b ha edge

end Retention.Digraph
