import Retention.Proofs.Walks

namespace Retention.Digraph

/-- Every edge leads to a vertex of the graph. -/
def Closed (g : Digraph) : Prop := ∀ u v, g.Edge u v → v < g.size

/-- What a reverse postorder of the vertices reached from the entry is. -/
structure IsReversePostorder (g : Digraph) (entry : Nat) (order : List Nat) : Prop where
  head : order.head? = some entry
  nodup : order.Nodup
  mem_iff : ∀ v, v ∈ order ↔ g.Reaches entry v
  /-- Every vertex but the entry comes after one of its predecessors. -/
  parent : ∀ before v after, order = before ++ v :: after → v ≠ entry → ∃ p ∈ before, g.Edge p v
  /-- An edge leads backwards only within a cycle. -/
  backward : order.Pairwise fun x y => g.Edge y x → g.Reaches x y

/-- The vertices that a search has found, in the order in which they will be left last. -/
def line (stack : List (Nat × List Nat)) (left : List Nat) : List Nat :=
  (stack.map Prod.fst).reverse ++ left

theorem line_cons (v : Nat) (ws : List Nat) (rest : List (Nat × List Nat)) (left : List Nat) :
    line ((v, ws) :: rest) left = line rest (v :: left) := by
  simp [line]

theorem line_discover (v w : Nat) (next ws : List Nat) (rest : List (Nat × List Nat))
    (left : List Nat) :
    line ((w, next) :: (v, ws) :: rest) left = ((v :: rest.map Prod.fst).reverse ++ [w]) ++ left := by
  simp [line]

theorem line_top (v : Nat) (ws : List Nat) (rest : List (Nat × List Nat)) (left : List Nat) :
    line ((v, ws) :: rest) left = (v :: rest.map Prod.fst).reverse ++ left := by
  simp [line]

theorem perm_line_discover (v w : Nat) (next ws : List Nat) (rest : List (Nat × List Nat))
    (left : List Nat) :
    (line ((w, next) :: (v, ws) :: rest) left).Perm (w :: line ((v, ws) :: rest) left) := by
  rw [line_discover, line_top, List.append_assoc]
  exact List.perm_middle

theorem mem_line_discover {v w x : Nat} {next ws left : List Nat} {rest : List (Nat × List Nat)} :
    x ∈ line ((w, next) :: (v, ws) :: rest) left ↔ x = w ∨ x ∈ line ((v, ws) :: rest) left :=
  (perm_line_discover v w next ws rest left).mem_iff.trans List.mem_cons

/-- What holds while a search is under way. -/
structure Searching (g : Digraph) (entry : Nat) (pool : Pool (List Nat))
    (stack : List (Nat × List Nat)) (left : List Nat) : Prop where
  head : (line stack left).head? = some entry
  nodup : (line stack left).Nodup
  reached : ∀ v ∈ line stack left, g.Reaches entry v
  parent : ∀ before v after, line stack left = before ++ v :: after → v ≠ entry →
    ∃ p ∈ before, g.Edge p v
  backward : (line stack left).Pairwise fun x y => g.Edge y x → g.Reaches x y
  /-- The pool holds the vertices that are not found yet. -/
  fresh : ∀ v, pool.get? v = if v < g.size ∧ v ∉ line stack left then some (g.successors v) else none
  /-- Older vertices on the stack reach the younger ones. -/
  path : (stack.map Prod.fst).Pairwise fun young old => g.Reaches old young
  frames : ∀ frame ∈ stack, (∀ w ∈ frame.2, g.Edge frame.1 w) ∧
    ∀ w, g.Edge frame.1 w → w ∈ frame.2 ∨ w ∈ line stack left
  finished : ∀ v ∈ left, ∀ w, g.Edge v w → w ∈ line stack left

namespace Searching

variable {g : Digraph} {entry v w : Nat} {pool : Pool (List Nat)} {next ws left : List Nat}
  {rest : List (Nat × List Nat)}

/-- A vertex whose successors are all looked at is left. -/
theorem leave_top (h : Searching g entry pool ((v, []) :: rest) left) :
    Searching g entry pool rest (v :: left) := by
  have same := line_cons v [] rest left
  have top := (h.frames (v, []) List.mem_cons_self).2
  refine ⟨same ▸ h.head, same ▸ h.nodup, same ▸ h.reached, same ▸ h.parent, same ▸ h.backward,
    same ▸ h.fresh, (List.pairwise_cons.mp h.path).2, ?_, ?_⟩
  · intro frame hf
    exact same ▸ h.frames frame (List.mem_cons_of_mem _ hf)
  · intro x hx w edge
    rw [← same]
    rcases List.mem_cons.mp hx with rfl | hx
    · exact (top w edge).resolve_left List.not_mem_nil
    · exact h.finished x hx w edge

theorem frame_found (h : Searching g entry pool ((v, w :: ws) :: rest) left) {found : Nat → Prop}
    (hw : found w) (keeps : ∀ x ∈ line ((v, w :: ws) :: rest) left, found x) :
    (∀ x ∈ ws, g.Edge v x) ∧ ∀ x, g.Edge v x → x ∈ ws ∨ found x := by
  obtain ⟨edges, looked⟩ := h.frames (v, w :: ws) List.mem_cons_self
  refine ⟨fun x hx => edges x (List.mem_cons_of_mem _ hx), ?_⟩
  intro x edge
  cases looked x edge with
  | inl hx =>
    cases List.mem_cons.mp hx with
    | inl same => exact .inr (same ▸ hw)
    | inr hx => exact .inl hx
  | inr hx => exact .inr (keeps x hx)

/-- A successor that is found already is passed over. -/
theorem skip (h : Searching g entry pool ((v, w :: ws) :: rest) left) (closed : g.Closed)
    (hw : pool.get? w = none) : Searching g entry pool ((v, ws) :: rest) left := by
  have edge : g.Edge v w := (h.frames (v, w :: ws) List.mem_cons_self).1 w List.mem_cons_self
  have found : w ∈ line ((v, ws) :: rest) left := by
    by_contra hn
    have hf := h.fresh w
    rw [hw, if_pos ⟨closed v w edge, hn⟩] at hf
    cases hf
  refine ⟨h.head, h.nodup, h.reached, h.parent, h.backward, h.fresh, h.path, ?_, h.finished⟩
  intro frame hf
  cases List.mem_cons.mp hf with
  | inl top =>
    subst top
    exact h.frame_found found fun x hx => hx
  | inr hf => exact h.frames frame (List.mem_cons_of_mem _ hf)

theorem discovered (h : Searching g entry pool ((v, w :: ws) :: rest) left)
    (hw : pool.get? w = some next) :
    w ∉ line ((v, ws) :: rest) left ∧ next = g.successors w := by
  have hf := h.fresh w
  rw [hw] at hf
  split at hf
  · rename_i hc
    exact ⟨hc.2, by simpa using hf⟩
  · simp at hf

/-- Everything on the stack reaches a vertex that is discovered now. -/
theorem stack_reaches (h : Searching g entry pool ((v, w :: ws) :: rest) left) {x : Nat}
    (hx : x ∈ v :: rest.map Prod.fst) : g.Reaches x w := by
  have edge : g.Edge v w := (h.frames (v, w :: ws) List.mem_cons_self).1 w List.mem_cons_self
  rcases List.mem_cons.mp hx with rfl | hx
  · exact (Reaches.refl g x).tail edge
  · exact ((List.pairwise_cons.mp h.path).1 x hx).tail edge

/-- The line after a discovery: the vertex stands after the whole stack. -/
theorem parent_discover (h : Searching g entry pool ((v, w :: ws) :: rest) left) :
    ∀ before x after, line ((w, next) :: (v, ws) :: rest) left = before ++ x :: after → x ≠ entry →
      ∃ p ∈ before, g.Edge p x := by
  intro before x after hl hx
  rw [line_discover, List.append_assoc, List.append_eq_append_iff] at hl
  have old := h.parent
  rw [line_top] at old
  have edge : g.Edge v w := (h.frames (v, w :: ws) List.mem_cons_self).1 w List.mem_cons_self
  rcases hl with ⟨mid, rfl, hmid⟩ | ⟨mid, hs, hmid⟩
  · rcases mid with _ | ⟨m, mid⟩
    · -- the discovery itself, right after the stack
      obtain ⟨rfl, -⟩ : w = x ∧ left = after := by simpa using hmid
      exact ⟨v, by simp, edge⟩
    · -- a vertex that was left before
      obtain ⟨rfl, rfl⟩ : w = m ∧ left = mid ++ x :: after := by simpa using hmid
      obtain ⟨p, hp, he⟩ := old ((v :: rest.map Prod.fst).reverse ++ mid) x after (by simp) hx
      refine ⟨p, ?_, he⟩
      rcases List.mem_append.mp hp with hp | hp
      · exact List.mem_append_left _ hp
      · exact List.mem_append_right _ (List.mem_cons_of_mem _ hp)
  · rcases mid with _ | ⟨m, mid⟩
    · obtain ⟨rfl, -⟩ : x = w ∧ after = left := by simpa using hmid
      rw [List.append_nil] at hs
      exact ⟨v, by rw [← hs]; simp, edge⟩
    · -- a vertex on the stack
      obtain ⟨rfl, rfl⟩ : x = m ∧ after = mid ++ ([w] ++ left) := by simpa using hmid
      exact old before x (mid ++ left) (by rw [hs]; simp) hx

theorem backward_discover (h : Searching g entry pool ((v, w :: ws) :: rest) left)
    (new : w ∉ line ((v, ws) :: rest) left) :
    (line ((w, next) :: (v, ws) :: rest) left).Pairwise fun x y => g.Edge y x → g.Reaches x y := by
  have old := h.backward
  rw [line_top, List.pairwise_append] at old
  rw [line_discover, List.append_assoc, List.pairwise_append]
  refine ⟨old.1, ?_, ?_⟩
  · rw [List.singleton_append, List.pairwise_cons]
    refine ⟨?_, old.2.1⟩
    intro y hy edge
    exact absurd (h.finished y hy w edge) new
  · intro x hx y hy edge
    rcases List.mem_cons.mp hy with rfl | hy
    · exact h.stack_reaches (List.mem_reverse.mp hx)
    · exact old.2.2 x hx y hy edge

theorem fresh_discover (h : Searching g entry pool ((v, w :: ws) :: rest) left) (x : Nat) :
    (pool.erase w).get? x =
      if x < g.size ∧ x ∉ line ((w, next) :: (v, ws) :: rest) left then some (g.successors x) else none := by
  by_cases hx : x = w
  · subst hx
    rw [Pool.get?_erase_self, if_neg]
    intro hc
    exact hc.2 (mem_line_discover.mpr (.inl rfl))
  · rw [Pool.get?_erase_of_ne pool (Ne.symm hx), h.fresh x]
    have same : x ∈ line ((w, next) :: (v, ws) :: rest) left ↔ x ∈ line ((v, w :: ws) :: rest) left :=
      mem_line_discover.trans (or_iff_right hx)
    simp only [same]

/-- A successor that is not found yet goes on top of the stack. -/
theorem discover (h : Searching g entry pool ((v, w :: ws) :: rest) left)
    (hw : pool.get? w = some next) :
    Searching g entry (pool.erase w) ((w, next) :: (v, ws) :: rest) left := by
  obtain ⟨new, rfl⟩ := h.discovered hw
  have grows : ∀ x ∈ line ((v, ws) :: rest) left, x ∈ line ((w, g.successors w) :: (v, ws) :: rest) left :=
    fun x hx => mem_line_discover.mpr (.inr hx)
  refine ⟨?_, ?_, ?_, h.parent_discover, h.backward_discover new, h.fresh_discover, ?_, ?_, ?_⟩
  · have old := h.head
    rw [line_top] at old
    rw [line_discover, List.append_assoc, List.head?_append_of_ne_nil _ (by simp)]
    rwa [List.head?_append_of_ne_nil _ (by simp)] at old
  · exact (perm_line_discover ..).nodup_iff.mpr (List.nodup_cons.mpr ⟨new, h.nodup⟩)
  · intro x hx
    cases mem_line_discover.mp hx with
    | inl same =>
      have hv : v ∈ line ((v, ws) :: rest) left := by
        rw [line_top]
        simp
      exact same ▸ (h.reached v hv).trans (h.stack_reaches List.mem_cons_self)
    | inr hx => exact h.reached x hx
  · rw [List.map_cons, List.pairwise_cons]
    exact ⟨fun x hx => h.stack_reaches hx, h.path⟩
  · intro frame hf
    cases List.mem_cons.mp hf with
    | inl top =>
      subst top
      exact ⟨fun x hx => hx, fun x hx => .inl hx⟩
    | inr hf =>
      cases List.mem_cons.mp hf with
      | inl below =>
        subst below
        exact h.frame_found (mem_line_discover.mpr (.inl rfl)) grows
      | inr hf =>
        obtain ⟨edges, looked⟩ := h.frames frame (List.mem_cons_of_mem _ hf)
        exact ⟨edges, fun x edge => (looked x edge).imp_right (grows x)⟩
  · intro x hx y edge
    exact grows y (h.finished x hx y edge)

theorem done (h : Searching g entry pool [] left) : g.IsReversePostorder entry left := by
  refine ⟨h.head, h.nodup, ?_, h.parent, h.backward⟩
  intro v
  constructor
  · exact h.reached v
  · intro reached
    have start : entry ∈ left := List.mem_of_mem_head? h.head
    exact reached.mem_of_closed start fun a b ha edge => h.finished a ha b edge

theorem leave (closed : g.Closed) {stack : List (Nat × List Nat)}
    (h : Searching g entry pool stack left) : g.IsReversePostorder entry (leave pool stack left) := by
  fun_induction Digraph.leave pool stack left with
  | case1 pool left => exact h.done
  | case2 pool left v rest ih => exact ih h.leave_top
  | case3 pool left v w ws rest taken ih => exact ih (h.skip closed taken)
  | case4 pool left v w ws rest next taken ih => exact ih (h.discover taken)

theorem start (g : Digraph) (entry : Nat) :
    Searching g entry ((Pool.ofArray g.out).erase entry) [(entry, g.successors entry)] [] := by
  have single : line [(entry, g.successors entry)] [] = [entry] := rfl
  refine ⟨rfl, by simp [single], ?_, ?_, by simp [single], ?_, by simp, ?_, by simp⟩
  · intro v hv
    obtain rfl : v = entry := by simpa [single] using hv
    exact Reaches.refl g v
  · intro before v after hl hv
    rw [single, eq_comm, List.append_eq_singleton_iff] at hl
    rcases hl with ⟨-, hl⟩ | ⟨-, hl⟩
    · exact absurd (by simpa using hl) (fun hc : v = entry ∧ after = [] => hv hc.1)
    · simp at hl
  · intro v
    by_cases hv : v = entry
    · subst hv
      rw [Pool.get?_erase_self, if_neg (by simp [single])]
    · rw [Pool.get?_erase_of_ne _ (Ne.symm hv)]
      by_cases hs : v < g.size
      · rw [if_pos ⟨hs, by simpa [single] using hv⟩]
        simp [Pool.get?, Pool.ofArray, successors, Array.getD, show v < g.out.size from hs]
      · rw [if_neg (fun hc => hs hc.1)]
        have outside : g.out[v]? = none := Array.getElem?_eq_none (Nat.le_of_not_lt hs)
        simp [Pool.get?, Pool.ofArray, outside]
  · intro frame hf
    obtain rfl := List.mem_singleton.mp hf
    exact ⟨fun w hw => hw, fun w edge => .inl edge⟩

end Searching

/-- Depth-first search gives a reverse postorder. -/
theorem isReversePostorder_reversePostorder {g : Digraph} (closed : g.Closed) (entry : Nat) :
    g.IsReversePostorder entry (g.reversePostorder entry) :=
  (Searching.start g entry).leave closed

end Retention.Digraph
