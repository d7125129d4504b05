import Mathlib.Data.List.Lex
import Retention.Proofs.TrailSearches

namespace Retention

/-- Sequences that begin with equally many numbers are compared by these first. -/
theorem append_lt_append_iff {a b c d : List Nat} (same : a.length = b.length) :
    a ++ c < b ++ d ↔ a < b ∨ a = b ∧ c < d := by
  induction a generalizing b with
  | nil =>
    obtain rfl : b = [] := List.length_eq_zero_iff.mp same.symm
    simp
  | cons x a ih =>
    cases b with
    | nil => simp at same
    | cons y b =>
      have shorter := ih (Nat.succ.inj same)
      simp only [List.cons_append, List.cons_lt_cons_iff, shorter, List.cons.injEq]
      tauto

theorem append_le_append_iff {a b c d : List Nat} (same : a.length = b.length) :
    a ++ c ≤ b ++ d ↔ a < b ∨ a = b ∧ c ≤ d := by
  rw [← not_lt, append_lt_append_iff same.symm, not_or, not_and, not_lt, not_lt, le_iff_lt_or_eq]
  constructor
  · rintro ⟨less | equal, tails⟩
    · exact .inl less
    · exact .inr ⟨equal, tails equal.symm⟩
  · rintro (less | ⟨equal, tails⟩)
    · exact ⟨.inl less, fun equal => absurd equal less.ne'⟩
    · exact ⟨.inr equal, fun _ => tails⟩

/-- Sorting keeps the order of what it does not tell apart. -/
theorem pairwise_mergeSort_stable {α : Type} {le : α → α → Bool} {R : α → α → Prop} {items : List α}
    (trans : ∀ a b c, le a b = true → le b c = true → le a c = true)
    (total : ∀ a b, (le a b || le b a) = true)
    (refl : ∀ a, R a a) (ordered : items.Pairwise R) :
    (items.mergeSort le).Pairwise fun a b => le a b = true ∧ (le b a = true → R a b) := by
  rw [← List.mergeSort_zipIdx, List.pairwise_map]
  have sorted := List.pairwise_mergeSort (List.zipIdxLE_trans trans) (List.zipIdxLE_total total) items.zipIdx
  refine sorted.imp_of_mem ?_
  rintro ⟨a, i⟩ ⟨b, j⟩ ha hb hab
  have hi : items[i]? = some a := List.mem_zipIdx_iff_getElem?.mp (List.mem_mergeSort.mp ha)
  have hj : items[j]? = some b := List.mem_zipIdx_iff_getElem?.mp (List.mem_mergeSort.mp hb)
  simp only [List.zipIdxLE] at hab
  split at hab
  · rename_i first
    refine ⟨first, fun second => ?_⟩
    rw [if_pos second] at hab
    obtain ⟨hil, rfl⟩ := List.getElem?_eq_some_iff.mp hi
    obtain ⟨hjl, rfl⟩ := List.getElem?_eq_some_iff.mp hj
    cases Nat.lt_or_eq_of_le (of_decide_eq_true hab) with
    | inl earlier => exact List.pairwise_iff_getElem.mp ordered i j hil hjl earlier
    | inr same =>
      subst same
      exact refl _
  · cases hab

/-- Shorter sequences come first, then lower ones. -/
def NoLater (a b : List Nat) : Prop := a.length < b.length ∨ a.length = b.length ∧ a ≤ b

theorem NoLater.length_le {a b : List Nat} (h : NoLater a b) : a.length ≤ b.length :=
  h.elim Nat.le_of_lt fun equal => Nat.le_of_eq equal.1

theorem NoLater.trans {a b c : List Nat} (h : NoLater a b) (k : NoLater b c) : NoLater a c := by
  rcases h with shorter | ⟨same, lower⟩
  · refine .inl ?_
    rcases k with shorter' | ⟨same', -⟩ <;> omega
  · rcases k with shorter' | ⟨same', lower'⟩
    · exact .inl (by omega)
    · exact .inr ⟨same.trans same', lower.trans lower'⟩

/-- Sequences keep their order when they go on in the same way. -/
theorem NoLater.append {a b : List Nat} (h : NoLater a b) (x : Nat) : NoLater (a ++ [x]) (b ++ [x]) := by
  unfold NoLater
  simp only [List.length_append, List.length_singleton, Nat.add_lt_add_iff_right, Nat.add_right_cancel_iff]
  refine h.imp_right fun equal => ⟨equal.1, (append_le_append_iff equal.1).mpr ?_⟩
  exact equal.2.lt_or_eq.imp_right fun same => ⟨same, le_refl _⟩

namespace HeapGraph

/-- The position of the reference that a trail takes last. -/
def lastVia : Trail → Nat
  | [] => 0
  | stop :: _ => stop.via.getD 0

theorem lastVia_extend (t : Trail) (e : OutEdge) : lastVia (TrailSearch.extend t e) = e.via := rfl

/-- The edges of an object come by the ids of their targets, and those to one target by position. -/
theorem pairwise_outEdges (g : HeapGraph) (i : Nat) : (g.outEdges i).Pairwise fun a b =>
    g.idOf a.target < g.idOf b.target ∨ g.idOf a.target = g.idOf b.target ∧ a.via ≤ b.via := by
  have numbered : (g.resolvedEdges i).Pairwise fun a b => a.via ≤ b.via := by
    have positions : ((g.referencesOf i).zipIdx.map Prod.snd).Pairwise (· < ·) := by
      rw [List.zipIdx_map_snd]
      exact List.pairwise_lt_range' 1
    refine List.Pairwise.filterMap _ ?_ (List.pairwise_map.mp positions)
    intro a b less x hx y hy
    obtain ⟨_, -, rfl⟩ := Option.map_eq_some_iff.mp hx
    obtain ⟨_, -, rfl⟩ := Option.map_eq_some_iff.mp hy
    exact Nat.le_of_lt less
  have stable : (g.outEdges i).Pairwise fun a b => decide (g.idOf a.target ≤ g.idOf b.target) = true ∧
      (decide (g.idOf b.target ≤ g.idOf a.target) = true → a.via ≤ b.via) := by
    rw [outEdges_eq]
    apply pairwise_mergeSort_stable
    · exact fun _ _ _ => ObjectId.decide_le_trans
    · exact fun _ _ => ObjectId.decide_le_total _ _
    · exact fun a => Nat.le_refl a.via
    · exact numbered
  refine stable.imp ?_
  intro a b sorted
  have hle : (g.idOf a.target).value ≤ (g.idOf b.target).value := of_decide_eq_true sorted.1
  by_cases same : g.idOf a.target = g.idOf b.target
  · refine .inr ⟨same, sorted.2 ?_⟩
    rw [same] at sorted ⊢
    exact sorted.1
  · exact .inl (UInt64.lt_of_le_of_ne hle fun values => same (ObjectId.eq_of_value values))

end HeapGraph

namespace TrailSearch

open HeapGraph

variable {g : HeapGraph} {follow : OutEdge → Bool} {rank : Trail → List Nat} {s after : TrailSearch}
  {t front : Trail} {rest : List Trail} {i n : Nat} {a b : OutEdge}

/-- Trails of shorter rank come first, then those of lower rank, then those by an earlier reference. -/
def InOrder (rank : Trail → List Nat) (a b : Trail) : Prop :=
  (rank a).length < (rank b).length ∨ (rank a).length = (rank b).length ∧
    (rank a < rank b ∨ rank a = rank b ∧ lastVia a ≤ lastVia b)

theorem inOrder_refl (rank : Trail → List Nat) (t : Trail) : InOrder rank t t :=
  .inr ⟨rfl, .inr ⟨rfl, Nat.le_refl _⟩⟩

theorem InOrder.noLater {a b : Trail} (h : InOrder rank a b) : NoLater (rank a) (rank b) := by
  refine h.imp_right fun equal => ⟨equal.1, ?_⟩
  rcases equal.2 with less | ⟨same, -⟩
  · exact less.le
  · exact same.le

/-- Of two trails of the same rank, the one that comes first takes the earlier reference. -/
theorem InOrder.lastVia_le {a b : Trail} (h : InOrder rank a b) (same : rank a = rank b) : lastVia a ≤ lastVia b := by
  rcases h with shorter | ⟨-, less | ⟨-, via⟩⟩
  · rw [same] at shorter
    exact absurd shorter (Nat.lt_irrefl _)
  · rw [same] at less
    exact absurd less (lt_irrefl _)
  · exact via

/-- The rank goes on by the id of the object that the trail goes on to. -/
def RankGoesOn (g : HeapGraph) (rank : Trail → List Nat) (t : Trail) (e : OutEdge) : Prop :=
  rank (extend t e) = rank t ++ [(g.idOf e.target).value.toNat]

theorem inOrder_extend (ha : RankGoesOn g rank t a) (hb : RankGoesOn g rank t b)
    (sorted : g.idOf a.target < g.idOf b.target ∨ g.idOf a.target = g.idOf b.target ∧ a.via ≤ b.via) :
    InOrder rank (extend t a) (extend t b) := by
  unfold InOrder
  rw [ha, hb, lastVia_extend, lastVia_extend]
  refine .inr ⟨by simp, ?_⟩
  cases sorted with
  | inl less =>
    have values : (g.idOf a.target).value.toNat < (g.idOf b.target).value.toNat := UInt64.lt_iff_toNat_lt.mp less
    exact .inl ((append_lt_append_iff rfl).mpr (.inr ⟨rfl, List.cons_lt_cons_iff.mpr (.inl values)⟩))
  | inr same => exact .inr ⟨by rw [same.1], same.2⟩

/-- Trails go on in the order of their ranks. -/
theorem inOrder_extend_of_lt (ha : RankGoesOn g rank front a) (hb : RankGoesOn g rank t b)
    (same : (rank front).length = (rank t).length) (less : rank front < rank t) :
    InOrder rank (extend front a) (extend t b) := by
  unfold InOrder
  rw [ha, hb]
  refine .inr ⟨by simp [same], .inl ?_⟩
  exact (append_lt_append_iff same).mpr (.inl less)

/-- A wave of trails whose ranks have length `n` is taken up in order, and the next wave, which goes on
from what this one has found, is put in order. -/
structure Ranked (g : HeapGraph) (rank : Trail → List Nat) (s : TrailSearch) (rest : List Trail) (n : Nat) : Prop where
  queued : ∀ t ∈ rest, (rank t).length = n
  next : ∀ q ∈ s.next.toList, ∃ u front e, s.trailOf u = some front ∧ (rank front).length = n ∧
    RankGoesOn g rank front e ∧ q = extend front e
  sorted : rest.Pairwise (InOrder rank)
  sorted_next : s.next.toList.Pairwise (InOrder rank)
  early : ∀ i t, s.trailOf i = some t → (rank t).length ≤ n ∧ ∀ q ∈ rest, InOrder rank t q

theorem Ranked.skip (h : Ranked g rank s (t :: rest) n) : Ranked g rank s rest n where
  queued := fun q hq => h.queued q (List.mem_cons_of_mem _ hq)
  next := h.next
  sorted := (List.pairwise_cons.mp h.sorted).2
  sorted_next := h.sorted_next
  early := fun i known hi => ⟨(h.early i known hi).1, fun q hq => (h.early i known hi).2 q (List.mem_cons_of_mem _ hq)⟩

section Find

variable (h : Ranked g rank s (t :: rest) n) (find : Finds g follow s t i after)
  (goesOn : ∀ e ∈ g.outEdges i, follow e = true → RankGoesOn g rank t e)
  (single : ∀ u front, s.trailOf u = some front → rank front = rank t → u = i)

include h find single in
/-- What the next wave holds already comes before what the object that is found adds to it. -/
theorem Ranked.next_inOrder {q : Trail} (hq : q ∈ s.next.toList) {e : OutEdge} (he : RankGoesOn g rank t e) :
    InOrder rank q (extend t e) := by
  obtain ⟨u, front, e', hu, long, ho, rfl⟩ := h.next q hq
  have same : (rank front).length = (rank t).length := long.trans (h.queued _ List.mem_cons_self).symm
  have lower : rank front ≤ rank t := by
    rcases ((h.early u front hu).2 _ List.mem_cons_self).noLater with shorter | ⟨-, lower⟩
    · omega
    · exact lower
  -- Trails of the same rank end at the same object, but this one was not found before.
  have apart : rank front ≠ rank t := by
    intro equal
    have known := find.unfound
    rw [← single u front hu equal, hu] at known
    cases known
  exact inOrder_extend_of_lt ho he same (lt_of_le_of_ne lower apart)

include h find goesOn single in
theorem Ranked.found : Ranked g rank after rest n := by
  have long : (rank t).length = n := h.queued _ List.mem_cons_self
  have later := h.skip
  refine ⟨later.queued, ?_, later.sorted, ?_, ?_⟩
  · intro q hq
    rw [find.next_eq] at hq
    cases List.mem_append.mp hq with
    | inl old =>
      obtain ⟨u, front, e, hu, known⟩ := h.next q old
      exact ⟨u, front, e, find.keeps hu, known⟩
    | inr new =>
      obtain ⟨e, he, rfl⟩ := List.mem_map.mp new
      obtain ⟨edge, ok⟩ := List.mem_filter.mp he
      exact ⟨i, t, e, find.found, long, goesOn e edge ok, rfl⟩
  · rw [find.next_eq, List.pairwise_append]
    refine ⟨h.sorted_next, ?_, ?_⟩
    · rw [List.pairwise_map]
      refine ((g.pairwise_outEdges i).filter _).imp_of_mem ?_
      intro a b ha hb sorted
      obtain ⟨edge, ok⟩ := List.mem_filter.mp ha
      obtain ⟨edge', ok'⟩ := List.mem_filter.mp hb
      exact inOrder_extend (goesOn a edge ok) (goesOn b edge' ok') sorted
    · intro q hq x hx
      obtain ⟨e, he, rfl⟩ := List.mem_map.mp hx
      obtain ⟨edge, ok⟩ := List.mem_filter.mp he
      exact h.next_inOrder find single hq (goesOn e edge ok)
  · intro k known hk
    rw [find.trailOf_eq] at hk
    split at hk
    · obtain rfl := Option.some.inj hk
      exact ⟨Nat.le_of_eq long, (List.pairwise_cons.mp h.sorted).1⟩
    · exact later.early k known hk

end Find

theorem Ranked.arrive (wf : g.WellFormed) (grow : Growing g follow s (t :: rest)) (h : Ranked g rank s (t :: rest) n)
    (goesOn : ∀ stop before, t = stop :: before → s.trailOf stop.place = none →
      ∀ e ∈ g.outEdges stop.place, follow e = true → RankGoesOn g rank t e)
    (single : ∀ stop before, t = stop :: before → s.trailOf stop.place = none →
      ∀ u front, s.trailOf u = some front → rank front = rank t → u = stop.place) :
    Ranked g rank (s.arrive follow t) rest n := by
  obtain ⟨stop, before, same, -, arrival⟩ := grow.arrival wf
  cases arrival with
  | inl skip =>
    obtain ⟨known, -, nothing⟩ := skip
    rw [nothing]
    exact h.skip
  | inr find => exact h.found find (goesOn stop before same find.unfound) (single stop before same find.unfound)

/-- Trails that were found come before all trails of the next wave. -/
theorem Ranked.turn (h : Ranked g rank s [] n) : Ranked g rank { s with next := #[] } s.next.toList (n + 1) := by
  have long : ∀ q ∈ s.next.toList, (rank q).length = n + 1 := by
    intro q hq
    obtain ⟨u, front, e, -, long, goesOn, rfl⟩ := h.next q hq
    rw [goesOn, List.length_append, long, List.length_singleton]
  refine ⟨long, fun q hq => absurd hq List.not_mem_nil, h.sorted_next, List.Pairwise.nil, ?_⟩
  intro i t hi
  have short := (h.early i t hi).1
  refine ⟨Nat.le_succ_of_le short, fun q hq => .inl ?_⟩
  rw [long q hq]
  omega

/-- A search that takes the edges to one target by position has found it by the earliest reference. -/
theorem Covering.earliest {le : Trail → Trail → Prop} {u : Nat} {e : OutEdge} {r : Reference} {p : Reference → Bool}
    (cover : Covering g follow le s []) (idle : s.next = #[]) (hu : s.trailOf u = some t)
    (hv : s.trailOf e.target = some (extend t e)) (hr : (g.referencesOf u)[e.via]? = some r) (hp : p r = true)
    (followed : ∀ q, p q = true → q.resolved = some e.target ∧ ∀ via, follow ⟨e.target, via, q.strong⟩ = true)
    (byVia : ∀ via strong, le (extend t e) (extend t ⟨e.target, via, strong⟩) → e.via ≤ via) :
    (g.referencesOf u).find? p = some r := by
  obtain ⟨inside, rfl⟩ := List.getElem?_eq_some_iff.mp hr
  rw [List.find?_eq_some_iff_getElem]
  refine ⟨hp, e.via, inside, rfl, fun j hj => ?_⟩
  -- An earlier reference would have brought the search to the same object by a trail before this one.
  by_contra hit
  have hit : p (g.referencesOf u)[j] = true := by simpa using hit
  obtain ⟨resolved, ok⟩ := followed _ hit
  have earlier : (⟨e.target, j, (g.referencesOf u)[j].strong⟩ : OutEdge) ∈ g.outEdges u :=
    mem_outEdges.mpr ⟨_, List.getElem?_eq_getElem (Nat.lt_trans hj inside), resolved, rfl⟩
  obtain ⟨known, hk, first⟩ := cover.target idle hu earlier (ok j)
  obtain rfl := Option.some.inj (hk.symm.trans hv)
  exact absurd hj (Nat.not_lt.mpr (byVia j _ first))

end TrailSearch

end Retention
