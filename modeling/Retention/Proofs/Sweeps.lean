import Retention.Proofs.Chains
import Retention.Proofs.LoadRuns

namespace Retention

/-- From the entry `v` can be reached past `d`, going back to a smaller number at most `k` times. -/
inductive Bypass (preds : Array (List Nat)) (d : Nat) : Nat → Nat → Prop where
  | entry : d ≠ 0 → Bypass preds d 0 0
  | forward {k p v : Nat} :
      Bypass preds d k p → p ∈ preds.getD v [] → p < v → d ≠ v → Bypass preds d k v
  | backward {k p v : Nat} :
      Bypass preds d k p → p ∈ preds.getD v [] → d ≠ v → Bypass preds d (k + 1) v

theorem Bypass.ne {preds : Array (List Nat)} {d k v : Nat} (h : Bypass preds d k v) : d ≠ v := by
  cases h <;> assumption

/-- There is no way past `d` to `v`. -/
def Unavoidable (preds : Array (List Nat)) (d v : Nat) : Prop := ∀ k, ¬ Bypass preds d k v

namespace Unavoidable

variable {preds : Array (List Nat)} {d p v : Nat}

theorem eq_zero (h : Unavoidable preds d 0) : d = 0 := by
  by_contra hd
  exact h 0 (.entry hd)

theorem of_pred (h : Unavoidable preds d v) (hne : d ≠ v) (hp : p ∈ preds.getD v []) :
    Unavoidable preds d p := fun k hk => h (k + 1) (.backward hk hp hne)

end Unavoidable

/-- What the sweeps rely on: each vertex but the entry has a predecessor with a smaller number. -/
structure Numbered (preds : Array (List Nat)) : Prop where
  nonempty : 0 < preds.size
  parent : ∀ v, 0 < v → v < preds.size → ∃ p ∈ preds.getD v [], p < v
  inside : ∀ v, ∀ p ∈ preds.getD v [], p < preds.size

open Estimates

/-- What holds of the estimates after a number of sweeps, when the next sweep is about to visit
`next`. -/
structure Sweeping (preds : Array (List Nat)) (e : Estimates) (sweeps next : Nat) : Prop where
  size : e.size = preds.size
  defined : ∀ v, e.isDefined v = true ↔ v < preds.size ∧ (v < next ∨ 0 < sweeps)
  falling : ∀ v, 0 < v → e.isDefined v → (e[v]?).join = some (e.climb v)
  /-- Where the predecessors of a vertex meet now is no farther from the entry than its estimate. -/
  shrinking : ∀ v, 0 < v → e.isDefined v → ∀ u,
    (∀ p ∈ preds.getD v [], e.isDefined p → u ∈ e.chain p) → u ∈ e.chain (e.climb v)
  /-- Down to the vertex visited next, the chain of an estimate follows the chains of the
  predecessors with smaller numbers. -/
  ahead : ∀ v, 0 < v → e.isDefined v → ∀ p ∈ preds.getD v [], p < v → ∀ u,
    v < next ∨ next ≤ u → u ∈ e.chain (e.climb v) → u ∈ e.chain p
  keeps : ∀ v, 0 < v → e.isDefined v → ∀ d, d ≠ v → Unavoidable preds d v →
    Unavoidable preds d (e.climb v)
  cleared : ∀ d k v, v < preds.size → Bypass preds d k v → k < sweeps ∨ k = sweeps ∧ v < next →
    d ∉ e.chain v

namespace Sweeping

variable {preds : Array (List Nat)} {e : Estimates} {sweeps next d m p r u v : Nat}

theorem defined_of_le (h : Sweeping preds e sweeps next) (hv : e.isDefined v) (huv : u ≤ v) :
    e.isDefined u := by
  have hd := (h.defined v).mp hv
  refine (h.defined u).mpr ⟨by omega, ?_⟩
  rcases hd.2 with hn | hs
  · exact .inl (by omega)
  · exact .inr hs

/-- A dominator of a vertex dominates everything above it on the chain of that vertex. -/
theorem unavoidable_on_chain (h : Sweeping preds e sweeps next) (hv : e.isDefined v)
    (hd : Unavoidable preds d v) (hu : u ∈ e.chain v) (hdu : d ≤ u) : Unavoidable preds d u := by
  induction v using Nat.strongRecOn with
  | ind v ih =>
    by_cases huv : u = v
    · exact huv ▸ hd
    · have hle := le_of_mem_chain hu
      have hpos : 0 < v := by omega
      have hlt := e.climb_lt hpos
      have hc := mem_chain_climb hu huv
      exact ih _ hlt (h.defined_of_le hv (by omega)) (h.keeps v hpos hv d (by omega) hd) hc

/-- No dominator is lost. -/
theorem mem_chain_of_unavoidable (h : Sweeping preds e sweeps next) (hv : e.isDefined v)
    (hd : Unavoidable preds d v) : d ∈ e.chain v := by
  induction v using Nat.strongRecOn with
  | ind v ih =>
    rcases Nat.eq_zero_or_pos v with rfl | hpos
    · exact mem_chain_zero.mpr hd.eq_zero
    · by_cases hdv : d = v
      · exact hdv ▸ e.self_mem_chain d
      · have hlt := e.climb_lt hpos
        have hc := ih _ hlt (h.defined_of_le hv (by omega)) (h.keeps v hpos hv d hdv hd)
        exact mem_chain_of_climb hpos hc

/-- Where the predecessors of the vertex visited next meet. -/
structure MeetsAt (preds : Array (List Nat)) (e : Estimates) (r m : Nat) : Prop where
  found : e.meetAll (preds.getD r []) = some m
  lt : m < r
  chain : ∀ u, u ∈ e.chain m ↔ ∀ p ∈ preds.getD r [], e.isDefined p → u ∈ e.chain p

theorem exists_meetsAt (numbered : Numbered preds) (h : Sweeping preds e sweeps r) (hr : 0 < r)
    (hs : r < preds.size) : ∃ m, MeetsAt preds e r m := by
  obtain ⟨p, hp, hpr⟩ := numbered.parent r hr hs
  have hd : e.isDefined p := (h.defined p).mpr ⟨by omega, .inl hpr⟩
  obtain ⟨m, hm⟩ := exists_meetAll hp hd
  have hc : ∀ u, u ∈ e.chain m ↔ ∀ p ∈ preds.getD r [], e.isDefined p → u ∈ e.chain p :=
    fun u => mem_chain_meetAll hm
  have hle := le_of_mem_chain ((hc m).mp (e.self_mem_chain m) p hp hd)
  exact ⟨m, hm, by omega, hc⟩

/-- A visit only takes numbers out of chains. -/
theorem chain_shrinks (h : Sweeping preds e sweeps r) (hr : 0 < r) (hs : r < preds.size)
    (hm : MeetsAt preds e r m) (hv : e.isDefined v) (hu : u ∈ (e.assign r m).chain v) :
    u ∈ e.chain v := by
  by_cases hrv : r ∈ e.chain v
  · rcases Nat.lt_or_ge u r with hur | hru
    · have below := (mem_chain_assign_of_lt (h.size ▸ hs) hm.lt hur hrv).mp hu
      have hd : e.isDefined r := h.defined_of_le hv (le_of_mem_chain hrv)
      have old := h.shrinking r hr hd u ((hm.chain u).mp below)
      exact mem_chain_trans (mem_chain_of_climb hr old) hrv
    · exact (mem_chain_assign_of_le hru).mp hu
  · rwa [chain_assign_of_not_mem hrv] at hu

theorem shrinking_visit (numbered : Numbered preds) (h : Sweeping preds e sweeps r) (hr : 0 < r)
    (hs : r < preds.size) (hm : MeetsAt preds e r m) (hv : 0 < v)
    (hd : (e.assign r m).isDefined v)
    (hu : ∀ p ∈ preds.getD v [], (e.assign r m).isDefined p → u ∈ (e.assign r m).chain p) :
    u ∈ (e.assign r m).chain ((e.assign r m).climb v) := by
  have hsize : r < e.size := h.size ▸ hs
  have old : ∀ p ∈ preds.getD v [], e.isDefined p → u ∈ e.chain p := fun p hp hdp =>
    h.chain_shrinks hr hs hm hdp (hu p hp ((isDefined_assign hsize).mpr (.inr hdp)))
  by_cases hvr : v = r
  · subst hvr
    rw [climb_assign_self hsize hm.lt, chain_assign_of_lt hm.lt]
    exact (hm.chain u).mpr old
  · have hdv : e.isDefined v := ((isDefined_assign hsize).mp hd).resolve_left hvr
    have hc := h.shrinking v hv hdv u old
    rw [climb_assign_of_ne hvr]
    by_cases hrc : r ∈ e.chain (e.climb v)
    · rcases Nat.lt_or_ge u r with hur | hru
      · -- the parent of `v` still has `r` on its chain, so it has followed `r` to its new place
        obtain ⟨p, hp, hpv⟩ := numbered.parent v hv ((h.defined v).mp hdv).1
        have hrp := h.ahead v hv hdv p hp hpv r (.inr (Nat.le_refl r)) hrc
        have hdp : e.isDefined p := h.defined_of_le hdv (Nat.le_of_lt hpv)
        have new := hu p hp ((isDefined_assign hsize).mpr (.inr hdp))
        rw [mem_chain_assign_of_lt hsize hm.lt hur hrp] at new
        exact (mem_chain_assign_of_lt hsize hm.lt hur hrc).mpr new
      · exact (mem_chain_assign_of_le hru).mpr hc
    · rwa [chain_assign_of_not_mem hrc]

theorem ahead_visit (h : Sweeping preds e sweeps r) (hs : r < preds.size)
    (hm : MeetsAt preds e r m) (hv : 0 < v) (hd : (e.assign r m).isDefined v)
    (hp : p ∈ preds.getD v []) (hpv : p < v) (hn : v < r + 1 ∨ r + 1 ≤ u)
    (hu : u ∈ (e.assign r m).chain ((e.assign r m).climb v)) : u ∈ (e.assign r m).chain p := by
  have hsize : r < e.size := h.size ▸ hs
  -- Before `r` nothing changes, at `r` the predecessors meet, and after `r` only the numbers above
  -- it count, which the visit leaves alone.
  rcases Nat.lt_trichotomy v r with hvr | rfl | hvr
  · have hdv : e.isDefined v := ((isDefined_assign hsize).mp hd).resolve_left (by omega)
    have hlt := e.climb_lt hv
    rw [climb_assign_of_ne (by omega), chain_assign_of_lt (by omega)] at hu
    rw [chain_assign_of_lt (by omega)]
    exact h.ahead v hv hdv p hp hpv u (.inl hvr) hu
  · rw [climb_assign_self hsize hm.lt, chain_assign_of_lt hm.lt] at hu
    rw [chain_assign_of_lt hpv]
    exact (hm.chain u).mp hu p hp ((h.defined p).mpr ⟨by omega, .inl hpv⟩)
  · have hdv : e.isDefined v := ((isDefined_assign hsize).mp hd).resolve_left (by omega)
    have hru : r ≤ u := by omega
    rw [climb_assign_of_ne (by omega), mem_chain_assign_of_le hru] at hu
    rw [mem_chain_assign_of_le hru]
    exact h.ahead v hv hdv p hp hpv u (.inr hru) hu

theorem keeps_visit (numbered : Numbered preds) (h : Sweeping preds e sweeps r) (hr : 0 < r)
    (hs : r < preds.size) (hm : MeetsAt preds e r m) (hdr : d ≠ r) (hd : Unavoidable preds d r) :
    Unavoidable preds d m := by
  obtain ⟨p, hp, hpr⟩ := numbered.parent r hr hs
  have hdp : e.isDefined p := (h.defined p).mpr ⟨by omega, .inl hpr⟩
  have common : d ∈ e.chain m := by
    rw [hm.chain]
    intro q hq hdq
    exact h.mem_chain_of_unavoidable hdq (hd.of_pred hdr hq)
  have hmp := (hm.chain m).mp (e.self_mem_chain m) p hp hdp
  exact h.unavoidable_on_chain hdp (hd.of_pred hdr hp) hmp (le_of_mem_chain common)

theorem cleared_visit (numbered : Numbered preds) (h : Sweeping preds e sweeps r) (hr : 0 < r)
    (hs : r < preds.size) (hm : MeetsAt preds e r m) {k : Nat} (hv : v < preds.size)
    (hb : Bypass preds d k v) (hk : k < sweeps ∨ k = sweeps ∧ v < r + 1) :
    d ∉ (e.assign r m).chain v := by
  have hsize : r < e.size := h.size ▸ hs
  by_cases hvr : v = r
  · subst hvr
    -- The way comes from a predecessor that was cleared before: earlier in this sweep if its number
    -- is smaller, and otherwise by the end of the last one.
    have away : d ∉ e.chain m := by
      cases hb with
      | entry => exact absurd hr (Nat.lt_irrefl 0)
      | @forward k p v hbp hp hpv hne =>
        have hdp : e.isDefined p := (h.defined p).mpr ⟨by omega, .inl hpv⟩
        have hcp := h.cleared d k p (by omega) hbp (by omega)
        exact fun hc => hcp ((hm.chain d).mp hc p hp hdp)
      | @backward k p v hbp hp hne =>
        have hps := numbered.inside v p hp
        have hdp : e.isDefined p := (h.defined p).mpr ⟨hps, .inr (by omega)⟩
        have hcp := h.cleared d k p hps hbp (by omega)
        exact fun hc => hcp ((hm.chain d).mp hc p hp hdp)
    rw [mem_chain_of_pos hr, climb_assign_self hsize hm.lt, chain_assign_of_lt hm.lt, not_or]
    exact ⟨hb.ne, away⟩
  · have hdv : e.isDefined v := (h.defined v).mpr ⟨hv, by omega⟩
    have old := h.cleared d k v hv hb (by omega)
    exact fun hc => old (h.chain_shrinks hr hs hm hdv hc)

/-- One visit keeps all that is known of the estimates, and the next vertex is one farther. -/
theorem assign (numbered : Numbered preds) (h : Sweeping preds e sweeps r) (hr : 0 < r)
    (hs : r < preds.size) (hm : MeetsAt preds e r m) : Sweeping preds (e.assign r m) sweeps (r + 1) where
  size := by rw [size_assign, h.size]
  defined := by
    intro v
    rw [isDefined_assign (h.size ▸ hs), h.defined]
    omega
  falling := by
    intro v hv hd
    have hsize : r < e.size := h.size ▸ hs
    by_cases hvr : v = r
    · subst hvr
      rw [getElem?_assign_self hsize, climb_assign_self hsize hm.lt]
      rfl
    · rw [getElem?_assign_of_ne hvr, climb_assign_of_ne hvr]
      exact h.falling v hv (((isDefined_assign hsize).mp hd).resolve_left hvr)
  shrinking := fun v hv hd u hu => h.shrinking_visit numbered hr hs hm hv hd hu
  ahead := fun v hv hd p hp hpv u hn hu => h.ahead_visit hs hm hv hd hp hpv hn hu
  keeps := by
    intro v hv hdv d hne hd
    have hsize : r < e.size := h.size ▸ hs
    by_cases hvr : v = r
    · subst hvr
      rw [climb_assign_self hsize hm.lt]
      exact h.keeps_visit numbered hr hs hm hne hd
    · rw [climb_assign_of_ne hvr]
      exact h.keeps v hv (((isDefined_assign hsize).mp hdv).resolve_left hvr) d hne hd
  cleared := fun _ _ _ hv hb hk => h.cleared_visit numbered hr hs hm hv hb hk

/-- After the last vertex the next sweep begins. -/
theorem wrap (h : Sweeping preds e sweeps preds.size) : Sweeping preds e (sweeps + 1) 1 where
  size := h.size
  defined := by
    intro v
    rw [h.defined]
    omega
  falling := h.falling
  shrinking := h.shrinking
  ahead := by
    intro v hv hd p hp hpv u _ hu
    exact h.ahead v hv hd p hp hpv u (.inl ((h.defined v).mp hd).1) hu
  keeps := h.keeps
  cleared := by
    intro d k v hv hb hk
    rcases Nat.eq_zero_or_pos v with rfl | hpos
    · exact fun hc => hb.ne (mem_chain_zero.mp hc)
    · exact h.cleared d k v hv hb (by omega)

theorem initial (numbered : Numbered preds) : Sweeping preds (Estimates.initial preds.size) 0 1 := by
  have hdef : ∀ v, (Estimates.initial preds.size).isDefined v = true ↔ v = 0 := by
    intro v
    by_cases hv : v = 0
    · subst hv
      simp [isDefined, Estimates.initial, numbered.nonempty]
    · by_cases hs : v < preds.size <;> simp [isDefined, Estimates.initial, Ne.symm hv, hv, hs]
  have absurd_of_pos : ∀ v, 0 < v → ¬ (Estimates.initial preds.size).isDefined v = true := by
    intro v hv hd
    have hz := (hdef v).mp hd
    omega
  refine ⟨by simp [Estimates.initial], ?_, ?_, ?_, ?_, ?_, ?_⟩
  · intro v
    have hn := numbered.nonempty
    rw [hdef]
    omega
  · exact fun v hv hd => absurd hd (absurd_of_pos v hv)
  · exact fun v hv hd => absurd hd (absurd_of_pos v hv)
  · exact fun v hv hd => absurd hd (absurd_of_pos v hv)
  · exact fun v hv hd => absurd hd (absurd_of_pos v hv)
  · intro d k v _ hb hk
    obtain rfl : v = 0 := by omega
    exact fun hc => hb.ne (mem_chain_zero.mp hc)

end Sweeping

end Retention
