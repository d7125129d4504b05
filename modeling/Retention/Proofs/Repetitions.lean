import Mathlib.Data.List.Basic
import Mathlib.Data.List.Induction

namespace Retention

section EraseReps

variable {α : Type} {le : α → α → Prop}

theorem eraseRepsBy_loop (same : α → α → Bool) (a : α) (items seen : List α) :
    List.eraseRepsBy.loop same a items seen = seen.reverse ++ List.eraseRepsBy same (a :: items) := by
  induction items generalizing a seen with
  | nil => simp [List.eraseRepsBy, List.eraseRepsBy.loop]
  | cons b items ih =>
    have step : ∀ seen, List.eraseRepsBy.loop same a (b :: items) seen =
        if same a b then List.eraseRepsBy.loop same a items seen
        else List.eraseRepsBy.loop same b items (a :: seen) := by
      intro seen
      rw [List.eraseRepsBy.loop]
      cases same a b <;> rfl
    rw [List.eraseRepsBy, step, step]
    split <;> simp [ih]

variable [DecidableEq α]

theorem eraseReps_cons_cons (a b : α) (items : List α) :
    (a :: b :: items).eraseReps = if a = b then (b :: items).eraseReps else a :: (b :: items).eraseReps := by
  show List.eraseRepsBy.loop (· == ·) a (b :: items) [] = _
  rw [List.eraseRepsBy.loop]
  by_cases same : a = b
  · subst same
    simp [List.eraseReps, List.eraseRepsBy]
  · have other : (a == b) = false := by simpa using same
    rw [other, if_neg same]
    exact eraseRepsBy_loop (· == ·) b items [a]

theorem eraseReps_sublist (items : List α) : items.eraseReps.Sublist items := by
  induction items with
  | nil => exact .slnil
  | cons a items ih =>
    cases items with
    | nil => exact .refl _
    | cons b items =>
      rw [eraseReps_cons_cons]
      split
      · exact ih.cons a
      · exact ih.cons_cons a

@[simp] theorem mem_eraseReps {a : α} {items : List α} : a ∈ items.eraseReps ↔ a ∈ items := by
  induction items with
  | nil => exact Iff.rfl
  | cons b items ih =>
    cases items with
    | nil => exact Iff.rfl
    | cons c items =>
      rw [eraseReps_cons_cons]
      by_cases same : b = c
      · simp [same, ih]
      · simp [same, ih]

/-- In a sorted list the same items stand side by side, so that none is left twice. -/
theorem nodup_eraseReps {items : List α} (sorted : items.Pairwise le)
    (antisymm : ∀ a ∈ items, ∀ b ∈ items, le a b → le b a → a = b) : items.eraseReps.Nodup := by
  induction items with
  | nil => exact .nil
  | cons a items ih =>
    cases items with
    | nil => exact List.pairwise_singleton _ a
    | cons b items =>
      obtain ⟨first, rest⟩ := List.pairwise_cons.mp sorted
      have later := ih rest fun c hc d hd => antisymm c (List.mem_cons_of_mem _ hc) d (List.mem_cons_of_mem _ hd)
      rw [eraseReps_cons_cons]
      split
      · exact later
      · rename_i other
        refine List.nodup_cons.mpr ⟨?_, later⟩
        rw [mem_eraseReps, List.mem_cons]
        intro again
        have back := again.resolve_left other
        have between : le b a := (List.pairwise_cons.mp rest).1 a back
        exact other (antisymm a (by simp) b (by simp) (first b (by simp)) between)

end EraseReps

section EraseDups

variable {α β : Type} [BEq α] [LawfulBEq α] [BEq β] [LawfulBEq β]

theorem eraseDups_concat (items : List α) (item : α) [Decidable (item ∈ items)] :
    (items ++ [item]).eraseDups = if item ∈ items then items.eraseDups else items.eraseDups ++ [item] := by
  rw [List.eraseDups_append]
  split <;> rename_i known <;> simp [List.removeAll, known, List.eraseDups_cons]

theorem nodup_eraseDups (items : List α) : items.eraseDups.Nodup := by
  classical
  induction items using List.reverseRecOn with
  | nil => simp
  | append_singleton items item ih =>
    rw [eraseDups_concat]
    split
    · exact ih
    · rename_i new
      refine List.nodup_append.mpr ⟨ih, by simp, ?_⟩
      intro a ha b hb same
      obtain rfl := List.mem_singleton.mp hb
      exact new (List.mem_eraseDups.mp (same ▸ ha))

theorem eraseDups_map {f : α → β} {items : List α} (inj : ∀ a ∈ items, ∀ b ∈ items, f a = f b → a = b) :
    (items.map f).eraseDups = items.eraseDups.map f := by
  classical
  induction items using List.reverseRecOn with
  | nil => rfl
  | append_singleton items item ih =>
    have before := ih fun a ha b hb => inj a (List.mem_append_left _ ha) b (List.mem_append_left _ hb)
    have member : f item ∈ items.map f ↔ item ∈ items := by
      constructor
      · intro hit
        obtain ⟨a, ha, same⟩ := List.mem_map.mp hit
        exact inj a (List.mem_append_left _ ha) item (by simp) same ▸ ha
      · exact List.mem_map_of_mem
    rw [List.map_append, List.map_singleton, eraseDups_concat, eraseDups_concat, before]
    by_cases known : item ∈ items
    · rw [if_pos known, if_pos (member.mpr known)]
    · rw [if_neg known, if_neg fun hit => known (member.mp hit), List.map_append, List.map_singleton]

end EraseDups

end Retention
