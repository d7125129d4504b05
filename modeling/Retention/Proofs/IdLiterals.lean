import Mathlib.Data.List.Forall2
import Mathlib.Data.Nat.Digits.Defs
import Mathlib.Tactic.IntervalCases
import Mathlib.Tactic.Ring
import Retention.ObjectId.Literal

namespace Retention

namespace Number

/-- The signs of the digits, each at its value. -/
def lowerSigns : List Char := "0123456789abcdef".toList

/-- The same with letters of the other case. -/
def upperSigns : List Char := "0123456789ABCDEF".toList

/-- The sign stands for a digit of the base. -/
def Stands (base : Nat) (sign : Char) (digit : Nat) : Prop :=
  digit < base ∧ (lowerSigns[digit]? = some sign ∨ upperSigns[digit]? = some sign)

/-- A run of signs, at least one, stands for the number whose digits they are, the leading one first. -/
def Numeral (base : Nat) (signs : List Char) (n : Nat) : Prop :=
  ∃ digits, digits ≠ [] ∧ List.Forall₂ (Stands base) signs digits ∧ n = Nat.ofDigits base digits.reverse

/-- A number is written as a run of digits, after one plus sign or none. -/
def Written (base : Nat) (text : List Char) (n : Nat) : Prop :=
  ∃ signs, (text = signs ∨ text = '+' :: signs) ∧ Numeral base signs n

variable {base acc d n : Nat} {c : Char} {signs text : List Char}

theorem ofNat_of_between {low high : Char} (h : low ≤ c ∧ c ≤ high) :
    c = Char.ofNat (c.toNat - low.toNat + low.toNat) ∧ c.toNat ≤ high.toNat := by
  have above : low.toNat ≤ c.toNat := h.1
  refine ⟨?_, h.2⟩
  rw [Nat.sub_add_cancel above, Char.ofNat_toNat]

/-- The letters count on from ten. -/
theorem letter_of_between {low high : Char} (h : low ≤ c ∧ c ≤ high) (value : c.toNat - low.toNat + 10 = d)
    (small : d < 16) : ∃ k < 6, d = k + 10 ∧ c = Char.ofNat (k + low.toNat) :=
  ⟨c.toNat - low.toNat, by omega, value.symm, (ofNat_of_between h).1⟩

theorem stands_of_digit? (small : base ≤ 16) (h : digit? base c = some d) : Stands base c d := by
  have read : (if '0' ≤ c ∧ c ≤ '9' then c.toNat - '0'.toNat
      else if 'a' ≤ c ∧ c ≤ 'z' then c.toNat - 'a'.toNat + 10
      else if 'A' ≤ c ∧ c ≤ 'Z' then c.toNat - 'A'.toNat + 10
      else base) = d ∧ d < base := by
    simp only [digit?] at h
    grind
  obtain ⟨value, inside⟩ := read
  refine ⟨inside, ?_⟩
  -- Each range of signs has its own part of the tables.
  split_ifs at value with numeric lower upper
  · obtain ⟨sign, last⟩ := ofNat_of_between numeric
    have range : d ≤ 9 := value ▸ Nat.sub_le_sub_right last 48
    rw [value] at sign
    interval_cases d <;> exact .inl (congrArg some sign.symm)
  · obtain ⟨k, range, rfl, sign⟩ := letter_of_between lower value (by omega)
    interval_cases k <;> exact .inl (congrArg some sign.symm)
  · obtain ⟨k, range, rfl, sign⟩ := letter_of_between upper value (by omega)
    interval_cases k <;> exact .inr (congrArg some sign.symm)
  · omega

theorem digit?_of_stands (small : base ≤ 16) (h : Stands base c d) : digit? base c = some d := by
  obtain ⟨inside, sign⟩ := h
  have range : d < 16 := by omega
  cases sign with
  | inl lower => interval_cases d <;> cases lower <;> exact if_pos inside
  | inr upper => interval_cases d <;> cases upper <;> exact if_pos inside

theorem digit?_eq_some (small : base ≤ 16) : digit? base c = some d ↔ Stands base c d :=
  ⟨stands_of_digit? small, digit?_of_stands small⟩

/-- The digits in front of a run count for as many places as the run has. -/
theorem ofDigits_cons (base d : Nat) (digits : List Nat) :
    Nat.ofDigits base (d :: digits).reverse = base ^ digits.length * d + Nat.ofDigits base digits.reverse := by
  simp [Nat.ofDigits_append, Nat.add_comm]

/-- Digits are read onto what was read before them. No value on the way is larger than the last one, so
one of them is too large exactly when the whole number is. -/
theorem readDigits_eq_ok (small : base ≤ 16) (pos : 0 < base) (fits : acc < limit) :
    readDigits base signs acc = .ok n ↔ n < limit ∧ ∃ digits, List.Forall₂ (Stands base) signs digits ∧
      n = base ^ digits.length * acc + Nat.ofDigits base digits.reverse := by
  induction signs generalizing acc with
  | nil =>
    simp only [readDigits, Except.ok.injEq, List.forall₂_nil_left_iff, exists_eq_left, List.length_nil,
      List.reverse_nil, Nat.ofDigits_nil, pow_zero, Nat.one_mul, Nat.add_zero]
    constructor
    · intro same
      exact ⟨same ▸ fits, same.symm⟩
    · exact fun h => h.2.symm
  | cons c rest ih =>
    have shifted : ∀ d digits, base ^ (d :: digits).length * acc + Nat.ofDigits base (d :: digits).reverse =
        base ^ digits.length * (acc * base + d) + Nat.ofDigits base digits.reverse := by
      intro d digits
      rw [ofDigits_cons, List.length_cons, pow_succ]
      ring
    simp only [List.forall₂_cons_left_iff, ← digit?_eq_some small]
    cases sign : digit? base c with
    | none => simp [readDigits, sign]
    | some d =>
      have first : (readDigits base (c :: rest) acc = .ok n) ↔
          acc * base + d < limit ∧ readDigits base rest (acc * base + d) = .ok n := by
        by_cases room : acc * base + d < limit <;> simp [readDigits, sign, room]
      rw [first]
      constructor
      · intro h
        obtain ⟨below, digits, stand, same⟩ := (ih h.1).mp h.2
        exact ⟨below, d :: digits, ⟨d, digits, rfl, stand, rfl⟩, by rw [shifted, same]⟩
      · intro h
        obtain ⟨below, _, ⟨_, digits, ⟨⟩, stand, rfl⟩, same⟩ := h
        rw [shifted] at same
        have room : acc * base + d < limit := by
          have grows := Nat.le_mul_of_pos_left (acc * base + d) (Nat.pow_pos (n := digits.length) pos)
          omega
        exact ⟨room, (ih room).mpr ⟨below, digits, stand, same⟩⟩

theorem not_numeral_nil : ¬ Numeral base [] n := by
  simp [Numeral]

theorem readDigits_zero (small : base ≤ 16) (pos : 0 < base) (c : Char) (rest : List Char) :
    readDigits base (c :: rest) 0 = .ok n ↔ n < limit ∧ Numeral base (c :: rest) n := by
  rw [readDigits_eq_ok small pos (by decide), Numeral]
  simp only [Nat.mul_zero, Nat.zero_add]
  have some : ∀ digits, List.Forall₂ (Stands base) (c :: rest) digits → digits ≠ [] := by
    intro digits stand empty
    cases empty ▸ stand
  grind

/-- The plus sign is no digit, so it stands in front of a number or nowhere. -/
theorem not_numeral_plus (small : base ≤ 16) : ¬ Numeral base ('+' :: signs) n := by
  intro h
  obtain ⟨_, -, stand, -⟩ := h
  cases stand with
  | cons first _ => simp [← digit?_eq_some small, digit?] at first

theorem written_plus (small : base ≤ 16) : Written base ('+' :: signs) n ↔ Numeral base signs n := by
  simp [Written, not_numeral_plus small]

theorem written_unsigned (h : c ≠ '+') : Written base (c :: signs) n ↔ Numeral base (c :: signs) n := by
  simp [Written, h]

/-- A number is read exactly where it is written, if it has its place in 64 bits. -/
theorem read_eq_ok (small : base ≤ 16) (pos : 0 < base) :
    read base text = .ok n ↔ n < limit ∧ Written base text n := by
  cases text with
  | nil => simp [read, Written, not_numeral_nil]
  | cons c rest =>
    by_cases plus : c = '+'
    · subst plus
      rw [written_plus small]
      cases rest with
      | nil => simp [read, not_numeral_nil]
      | cons d later => exact readDigits_zero small pos d later
    · rw [written_unsigned plus, ← readDigits_zero small pos]
      simp [read, plus]

/-- The signs are those that a number of these digits is printed in. -/
def Printed (base : Nat) (signs : List Char) (n : Nat) : Prop :=
  ∃ digits, digits ≠ [] ∧ (∀ d ∈ digits, d < base) ∧ signs = digits.map Nat.digitChar ∧
    n = Nat.ofDigits base digits.reverse

theorem getElem?_lowerSigns (h : d < 16) : lowerSigns[d]? = some (Nat.digitChar d) := by
  interval_cases d <;> rfl

theorem Printed.numeral (h : Printed base signs n) (small : base ≤ 16) : Numeral base signs n := by
  obtain ⟨digits, some, inside, rfl, same⟩ := h
  refine ⟨digits, some, ?_, same⟩
  rw [List.forall₂_map_left_iff, List.forall₂_same]
  intro d hd
  have below := inside d hd
  exact ⟨below, .inl (getElem?_lowerSigns (by omega))⟩

theorem Printed.mem_lowerSigns (h : Printed base signs n) (small : base ≤ 16) (hc : c ∈ signs) : c ∈ lowerSigns := by
  obtain ⟨digits, -, inside, rfl, -⟩ := h
  obtain ⟨d, hd, rfl⟩ := List.mem_map.mp hc
  have below := inside d hd
  exact List.mem_of_getElem? (getElem?_lowerSigns (by omega))

theorem printed_toDigits (h : 1 < base) (n : Nat) : Printed base (Nat.toDigits base n) n := by
  induction n using Nat.strongRecOn with
  | ind n ih =>
    rw [Nat.toDigits_eq_if h]
    split
    · exact ⟨[n], by simp, by simpa, rfl, by simp⟩
    · obtain ⟨digits, some, inside, signs, same⟩ := ih (n / base) (Nat.div_lt_self (by omega) h)
      have last : n % base < base := Nat.mod_lt n (by omega)
      refine ⟨digits ++ [n % base], by simp, ?_, by simp [signs], ?_⟩
      · simpa [or_imp, forall_and, last] using inside
      · rw [List.reverse_append, List.reverse_singleton, List.singleton_append, Nat.ofDigits_cons, ← same]
        exact (Nat.mod_add_div n base).symm

/-- Zeros in front make no difference. -/
theorem Printed.pad (h : Printed base signs n) (pos : 0 < base) (width : Nat) :
    Printed base (ObjectId.padDigits width signs) n := by
  obtain ⟨digits, some, inside, signs, same⟩ := h
  refine ⟨List.replicate (width - digits.length) 0 ++ digits, by simp [some], ?_, ?_, ?_⟩
  · intro d hd
    cases List.mem_append.mp hd with
    | inl zero => exact (List.eq_of_mem_replicate zero).symm ▸ pos
    | inr digit => exact inside d digit
  · simp [ObjectId.padDigits, signs]
  · simpa [Nat.ofDigits_append] using same

end Number

namespace ObjectId

/-- A text spells a number: in decimal, or in hexadecimal after a zero and an x of either case. -/
inductive Spells : List Char → Nat → Prop where
  | decimal {text : List Char} {n : Nat} : Number.Written 10 text n → Spells text n
  | hex {mark : Char} {text : List Char} {n : Nat} : mark = 'x' ∨ mark = 'X' → Number.Written 16 text n →
      Spells ('0' :: mark :: text) n

variable {text : List Char} {id : ObjectId}

theorem value_ofNat {n : Nat} (h : n < Number.limit) : (⟨UInt64.ofNat n⟩ : ObjectId) = id ↔ n = id.value.toNat := by
  rw [ObjectId.mk.injEq, ← UInt64.toNat_inj, UInt64.toNat_ofNat_of_lt' h]

/-- Numbers that have their place in 64 bits are the values of ids. -/
theorem map_read_eq_ok {base : Nat} (small : base ≤ 16) (pos : 0 < base) :
    (Number.read base text).map (fun n => (⟨UInt64.ofNat n⟩ : ObjectId)) = .ok id ↔
      Number.Written base text id.value.toNat := by
  have written : ∀ n, Number.read base text = .ok n ↔ n < Number.limit ∧ Number.Written base text n :=
    fun n => Number.read_eq_ok small pos
  cases number : Number.read base text with
  | error fault =>
    have none := (written id.value.toNat).not.mp (by simp [number])
    simpa [Except.map] using fun h => none ⟨id.value.toNat_lt, h⟩
  | ok n =>
    have here := (written n).mp number
    simp only [number, Except.ok.injEq] at written
    simp only [Except.map, Except.ok.injEq, value_ofNat here.1, written]
    exact and_iff_right id.value.toNat_lt

/-- Where a mark follows the zero, the number is no decimal one. -/
theorem not_written_marked {mark : Char} {n : Nat} (h : mark = 'x' ∨ mark = 'X') :
    ¬ Number.Written 10 ('0' :: mark :: text) n := by
  rw [Number.written_unsigned (by decide)]
  intro numeral
  obtain ⟨_, -, stand, -⟩ := numeral
  cases stand with
  | cons _ later =>
    cases later with
    | cons sign _ =>
      rw [← Number.digit?_eq_some (by decide)] at sign
      cases h <;> simp [Number.digit?, *] at sign

theorem spells_marked {mark : Char} {n : Nat} (h : mark = 'x' ∨ mark = 'X') :
    Spells ('0' :: mark :: text) n ↔ Number.Written 16 text n := by
  constructor
  · intro spells
    cases spells with
    | decimal written => exact absurd written (not_written_marked h)
    | hex _ written => exact written
  · exact .hex h

theorem parseChars_eq_ok : parseChars text = .ok id ↔ Spells text id.value.toNat := by
  unfold parseChars
  split
  · rw [map_read_eq_ok (by decide) (by decide), spells_marked (.inl rfl)]
  · rw [map_read_eq_ok (by decide) (by decide), spells_marked (.inr rfl)]
  · rename_i lower upper
    rw [map_read_eq_ok (by decide) (by decide)]
    constructor
    · exact .decimal
    · intro spells
      cases spells with
      | decimal written => exact written
      | @hex mark rest _ marked written =>
        cases marked with
        | inl same => exact absurd (by rw [same]) (lower rest)
        | inr same => exact absurd (by rw [same]) (upper rest)

theorem parse_eq_ok {text : String} : parse text = .ok id ↔ Spells text.toList id.value.toNat := parseChars_eq_ok

theorem printed_hexDigits (id : ObjectId) : Number.Printed 16 id.hexDigits id.value.toNat :=
  (Number.printed_toDigits (by decide) _).pad (by decide) 8

theorem le_length_hexDigits (id : ObjectId) : 8 ≤ id.hexDigits.length := by
  rw [hexDigits, padDigits, List.length_append, List.length_replicate]
  omega

/-- Every id is read from what it prints as and from its decimal digits, and a text is read as an id
exactly when it spells the id's number. -/
theorem parse_spelled :
    (∀ id : ObjectId,
      (∃ signs : List Char, id.text = "0x" ++ String.ofList signs ∧ 8 ≤ signs.length ∧
        ∀ sign ∈ signs, sign ∈ Number.lowerSigns) ∧
      parse id.text = .ok id ∧ parse (toString id.value.toNat) = .ok id) ∧
    ∀ (text : String) (id : ObjectId), parse text = .ok id ↔ Spells text.toList id.value.toNat := by
  refine ⟨?_, fun text id => parse_eq_ok⟩
  intro id
  have hex := id.printed_hexDigits
  have decimal : Number.Printed 10 (Nat.toDigits 10 id.value.toNat) id.value.toNat :=
    Number.printed_toDigits (by decide) _
  refine ⟨⟨id.hexDigits, ?_, id.le_length_hexDigits, fun sign => hex.mem_lowerSigns (by decide)⟩, ?_, ?_⟩
  · rw [ObjectId.text, ← String.toList_inj]
    simp
  · rw [parse_eq_ok, ObjectId.text, String.toList_ofList]
    exact .hex (.inl rfl) ⟨_, .inl rfl, hex.numeral (by decide)⟩
  · rw [parse_eq_ok, Nat.toString_eq_ofList_toDigits, String.toList_ofList]
    exact .decimal ⟨_, .inl rfl, decimal.numeral (by decide)⟩

/-- A sign comes after the mark, not before it, and stands in front of a digit. -/
example : ["0x+1", "0X00000000000000000000000fF", "+7"].map parse = [.ok ⟨1⟩, .ok ⟨255⟩, .ok ⟨7⟩] ∧
    ["+0x1", "0x", "+", "0x++1", "18446744073709551616"].map parse =
      [.error .invalidDigit, .error .empty, .error .invalidDigit, .error .invalidDigit, .error .tooLarge] := by
  decide +kernel

end ObjectId

end Retention
