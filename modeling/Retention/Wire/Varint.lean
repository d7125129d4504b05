namespace Retention.Wire

abbrev Bytes := List UInt8

namespace Varint

def write (n : Nat) : Bytes :=
  if n < 128 then [UInt8.ofNat n]
  else UInt8.ofNat (n % 128 + 128) :: write (n / 128)
termination_by n
decreasing_by omega

/-- Reads at most `groups` more bytes; the tenth byte of all may only hold the last bit. -/
def readGroups : Nat → Bytes → Option (Nat × Bytes)
  | 0, _ => none
  | _ + 1, [] => none
  | groups + 1, b :: rest =>
    if b.toNat < 128 then
      if groups = 0 ∧ 2 ≤ b.toNat then none else some (b.toNat, rest)
    else (readGroups groups rest).map fun (high, rest) => (b.toNat - 128 + 128 * high, rest)

def read (bytes : Bytes) : Option (UInt64 × Bytes) :=
  (readGroups 10 bytes).map fun (n, rest) => (UInt64.ofNat n, rest)

theorem length_readGroups {groups : Nat} {bytes : Bytes} {n : Nat} {rest : Bytes}
    (h : readGroups groups bytes = some (n, rest)) : rest.length < bytes.length := by
  induction groups generalizing bytes n rest with
  | zero => simp [readGroups] at h
  | succ groups ih =>
    cases bytes with
    | nil => simp [readGroups] at h
    | cons b tail =>
      simp only [readGroups] at h
      split at h
      · split at h
        · simp at h
        · simp only [Option.some.injEq, Prod.mk.injEq] at h
          simp [← h.2]
      · simp only [Option.map_eq_some_iff] at h
        obtain ⟨⟨high, after⟩, hread, heq⟩ := h
        simp only [Prod.mk.injEq] at heq
        have := ih hread
        simp only [List.length_cons, ← heq.2]
        omega

theorem length_read {bytes : Bytes} {n : UInt64} {rest : Bytes} (h : read bytes = some (n, rest)) :
    rest.length < bytes.length := by
  simp only [read, Option.map_eq_some_iff] at h
  obtain ⟨⟨m, after⟩, hread, heq⟩ := h
  simp only [Prod.mk.injEq] at heq
  rw [← heq.2]
  exact length_readGroups hread

end Varint

end Retention.Wire
