import Mathlib.Data.Nat.Digits.Defs
import Picon.Lib.Cursor

/-!
# Text separated by white space

Formatted extraction from a byte stream, as a C++ `istream` does it: white
space is skipped, then a word or a number is taken off the front. The stream is
the text that is left. A list of records written one after the other is read
back by taking records off until one fails.
-/

namespace Picon.Lib

/-- `isspace` in the classic locale. -/
def isSpace (b : UInt8) : Bool := (9 ≤ b && b ≤ 13) || b = 32

def isDigit (b : UInt8) : Bool := 48 ≤ b && b ≤ 57

def skipSpace (text : List UInt8) : List UInt8 := text.dropWhile isSpace

/-- `>> std::string`. -/
def extractWord (text : List UInt8) : Option (List UInt8 × List UInt8) :=
  match (skipSpace text).takeWhile (!isSpace ·) with
  | [] => none
  | word => some (word, (skipSpace text).dropWhile (!isSpace ·))

/-- `<<` of an unsigned number. -/
def decimal (n : Nat) : List UInt8 :=
  if n = 0 then [48] else ((Nat.digits 10 n).map fun d => UInt8.ofNat (48 + d)).reverse

/-- `<<` of a signed number. -/
def decimalInt (n : Int) : List UInt8 :=
  if n < 0 then 45 :: decimal n.natAbs else decimal n.natAbs

/-- A number in an `unsigned int`. -/
def uint32 (n : Nat) : Nat := n % 2 ^ 32

/-- The same bits in an `int`. -/
def int32 (n : Nat) : Int := (BitVec.ofNat 32 n).toInt

/-- The value of a row of digits. -/
def ofDecimal (digits : List UInt8) : Nat :=
  Nat.ofDigits 10 (digits.reverse.map fun b => b.toNat - 48)

/-- An optional sign, and what follows it. -/
def takeSign : List UInt8 → Bool × List UInt8
  | 43 :: rest => (false, rest)
  | 45 :: rest => (true, rest)
  | text => (false, text)

/-- `>> uint32_t`; a value that does not fit is a failure, and a minus sign
negates modulo the width. -/
def extractUInt32 (text : List UInt8) : Option (Nat × List UInt8) :=
  let signed := takeSign (skipSpace text)
  let digits := signed.2.takeWhile isDigit
  if digits = [] ∨ 2 ^ 32 ≤ ofDecimal digits then none
  else some (if signed.1 then (2 ^ 32 - ofDecimal digits) % 2 ^ 32 else ofDecimal digits,
    signed.2.dropWhile isDigit)

/-! ### What was written is read back -/

/-- A word: not empty, and free of white space. -/
def IsWord (w : List UInt8) : Prop := w ≠ [] ∧ ∀ b ∈ w, isSpace b = false

-- through the list: the search for an instance may otherwise go through all bytes
instance (w : List UInt8) : Decidable (IsWord w) :=
  @instDecidableAnd _ _ inferInstance (List.decidableBAll (fun b => isSpace b = false) w)

theorem skipSpace_append {ws text : List UInt8} (hws : ∀ b ∈ ws, isSpace b = true) :
    skipSpace (ws ++ text) = skipSpace text :=
  List.dropWhile_append_of_pos hws

theorem skipSpace_word {w : List UInt8} (hw : IsWord w) (rest : List UInt8) :
    skipSpace (w ++ rest) = w ++ rest := by
  obtain ⟨hne, hall⟩ := hw
  cases w with
  | nil => exact absurd rfl hne
  | cons b w =>
    have hb : isSpace b = false := hall b List.mem_cons_self
    simp [skipSpace, hb]

/-- A run of bytes with a property, up to the first byte without it. -/
theorem takeWhile_append_cons {p : UInt8 → Bool} {w : List UInt8} (hw : ∀ b ∈ w, p b = true)
    {c : UInt8} (hc : p c = false) (rest : List UInt8) :
    (w ++ c :: rest).takeWhile p = w ∧ (w ++ c :: rest).dropWhile p = c :: rest := by
  rw [List.takeWhile_append_of_pos hw, List.dropWhile_append_of_pos hw]
  simp [hc]

theorem extractWord_append {ws w : List UInt8} (hws : ∀ b ∈ ws, isSpace b = true) (hw : IsWord w)
    {c : UInt8} (hc : isSpace c = true) (rest : List UInt8) :
    extractWord (ws ++ (w ++ c :: rest)) = some (w, c :: rest) := by
  have hall : ∀ b ∈ w, (!isSpace b) = true := by
    intro b hb
    simp [hw.2 b hb]
  have hend : (!isSpace c) = false := by simp [hc]
  obtain ⟨htake, hdrop⟩ := takeWhile_append_cons hall hend rest
  unfold extractWord
  rw [skipSpace_append hws, skipSpace_word hw, htake, hdrop]
  obtain ⟨b, tail, rfl⟩ := List.exists_cons_of_ne_nil hw.1
  rfl

/-- A stream of white space holds no further word. -/
theorem extractWord_space {ws : List UInt8} (hws : ∀ b ∈ ws, isSpace b = true) :
    extractWord ws = none := by
  have h : skipSpace (ws ++ []) = skipSpace [] := skipSpace_append hws
  rw [List.append_nil] at h
  unfold extractWord
  rw [h]
  rfl

theorem decimal_digit {n : Nat} {b : UInt8} (h : b ∈ decimal n) :
    ∃ d < 10, b = UInt8.ofNat (48 + d) := by
  unfold decimal at h
  split at h
  · exact ⟨0, by decide, List.mem_singleton.mp h⟩
  · rw [List.mem_reverse] at h
    obtain ⟨d, hd, rfl⟩ := List.mem_map.mp h
    exact ⟨d, Nat.digits_lt_base (by decide) hd, rfl⟩

theorem digit_isDigit : ∀ d < 10, isDigit (UInt8.ofNat (48 + d)) = true ∧
    isSpace (UInt8.ofNat (48 + d)) = false := by decide

theorem decimal_isDigit {n : Nat} : ∀ b ∈ decimal n, isDigit b = true := by
  intro b hb
  obtain ⟨d, hd, rfl⟩ := decimal_digit hb
  exact (digit_isDigit d hd).1

theorem decimal_isWord (n : Nat) : IsWord (decimal n) := by
  refine ⟨?_, fun b hb => ?_⟩
  · unfold decimal
    split
    · exact List.cons_ne_nil _ _
    · rename_i hn
      simpa [Nat.digits_eq_nil_iff_eq_zero] using hn
  · obtain ⟨d, hd, rfl⟩ := decimal_digit hb
    exact (digit_isDigit d hd).2

theorem takeSign_decimal (n : Nat) (rest : List UInt8) :
    takeSign (decimal n ++ rest) = (false, decimal n ++ rest) := by
  obtain ⟨b, tail, hb⟩ := List.exists_cons_of_ne_nil (decimal_isWord n).1
  have hdigit : isDigit b = true := decimal_isDigit b (hb ▸ List.mem_cons_self)
  rw [hb, List.cons_append]
  unfold takeSign
  split
  · rename_i heq
    obtain ⟨rfl, -⟩ := List.cons.inj heq
    cases hdigit
  · rename_i heq
    obtain ⟨rfl, -⟩ := List.cons.inj heq
    cases hdigit
  · rfl

theorem ofDecimal_decimal (n : Nat) : ofDecimal (decimal n) = n := by
  unfold ofDecimal decimal
  split
  · rename_i hn
    subst hn
    rfl
  · rw [List.reverse_reverse, List.map_map]
    have hmap : (Nat.digits 10 n).map ((fun b : UInt8 => b.toNat - 48) ∘
        fun d => UInt8.ofNat (48 + d)) = (Nat.digits 10 n).map id := by
      refine List.map_congr_left fun d hd => ?_
      have hlt : d < 10 := Nat.digits_lt_base (by decide) hd
      simp only [Function.comp_apply, UInt8.toNat_ofNat', id_eq]
      omega
    rw [hmap, List.map_id, Nat.ofDigits_digits]

theorem extractUInt32_append {ws : List UInt8} (hws : ∀ b ∈ ws, isSpace b = true) {n : Nat}
    (hn : n < 2 ^ 32) {c : UInt8} (hc : isDigit c = false) (rest : List UInt8) :
    extractUInt32 (ws ++ (decimal n ++ c :: rest)) = some (n, c :: rest) := by
  obtain ⟨htake, hdrop⟩ := takeWhile_append_cons (decimal_isDigit (n := n)) hc rest
  unfold extractUInt32
  rw [skipSpace_append hws, skipSpace_word (decimal_isWord n), takeSign_decimal]
  dsimp only
  rw [htake, hdrop, ofDecimal_decimal, if_neg]
  · simp
  · rw [not_or, Nat.not_le]
    exact ⟨(decimal_isWord n).1, hn⟩

/-! ### Signed and unsigned numbers -/

theorem decimalInt_natCast (n : Nat) : decimalInt (n : Int) = decimal n := by
  rw [decimalInt, if_neg (Int.not_lt.mpr (Int.natCast_nonneg n)), Int.natAbs_natCast]

theorem decimalInt_isWord (n : Int) : IsWord (decimalInt n) := by
  obtain ⟨hne, hspace⟩ := decimal_isWord n.natAbs
  unfold decimalInt
  split
  · refine ⟨List.cons_ne_nil _ _, fun b hb => ?_⟩
    rcases List.mem_cons.mp hb with rfl | hb
    · rfl
    · exact hspace b hb
  · exact ⟨hne, hspace⟩

theorem uint32_of_lt {n : Nat} (h : n < 2 ^ 32) : uint32 n = n := Nat.mod_eq_of_lt h

theorem uint32_lt (n : Nat) : uint32 n < 2 ^ 32 := Nat.mod_lt n (by decide)

theorem int32_of_lt {n : Nat} (h : n < 2 ^ 31) : int32 n = n := by
  rw [int32, BitVec.toInt_ofNat']
  exact Int.bmod_eq_of_le_mul_two (by omega) (by omega)

theorem int32_lt (n : Nat) : int32 n < 2 ^ 31 := BitVec.toInt_lt

/-! ### What is read is a word or a number -/

theorem extractWord_isWord {text w rest : List UInt8} (h : extractWord text = some (w, rest)) :
    IsWord w := by
  unfold extractWord at h
  split at h
  · cases h
  · rename_i hne
    obtain ⟨rfl, -⟩ := Prod.mk.inj (Option.some.inj h)
    refine ⟨hne, fun b hb => ?_⟩
    simpa using List.all_eq_true.mp List.all_takeWhile b hb

theorem extractUInt32_lt {text rest : List UInt8} {n : Nat}
    (h : extractUInt32 text = some (n, rest)) : n < 2 ^ 32 := by
  unfold extractUInt32 at h
  dsimp only at h
  split at h
  · cases h
  · rename_i hvalue
    rw [not_or, Nat.not_le] at hvalue
    obtain ⟨rfl, -⟩ := Prod.mk.inj (Option.some.inj h)
    split
    · exact Nat.mod_lt _ (by decide)
    · exact hvalue.2

section Records

variable {α : Type}

/-- `while (stream >> record)`, at most `fuel` times. -/
def extractAll (extract : List UInt8 → Option (α × List UInt8)) : Nat → List UInt8 → List α
  | 0, _ => []
  | fuel + 1, text =>
    match extract text with
    | none => []
    | some (a, rest) => a :: extractAll extract fuel rest

/-- Records that each end with the byte `c` are read back one by one, when a
record is read off the front whether or not the end of the last one is still
there, and a text without a record fails. -/
theorem extractAll_flatMap {extract : List UInt8 → Option (α × List UInt8)}
    {body : α → List UInt8} {c : UInt8} {records : List α}
    (hone : ∀ a ∈ records, ∀ ws, ws = [] ∨ ws = [c] → ∀ rest,
      extract (ws ++ (body a ++ c :: rest)) = some (a, c :: rest))
    (hnone : ∀ ws, ws = [] ∨ ws = [c] → extract ws = none) {fuel : Nat}
    (hfuel : records.length ≤ fuel) {ws : List UInt8} (hws : ws = [] ∨ ws = [c]) :
    extractAll extract fuel (ws ++ records.flatMap fun a => body a ++ [c]) = records := by
  induction records generalizing fuel ws with
  | nil =>
    cases fuel with
    | zero => rfl
    | succ fuel => simp [extractAll, hnone ws hws]
  | cons a records ih =>
    cases fuel with
    | zero => cases hfuel
    | succ fuel =>
      have hrest := ih (fun a ha => hone a (List.mem_cons_of_mem _ ha))
        (Nat.le_of_succ_le_succ hfuel) (.inr rfl)
      have htext : ws ++ (a :: records).flatMap (fun a => body a ++ [c]) =
          ws ++ (body a ++ c :: records.flatMap fun a => body a ++ [c]) := by
        simp
      rw [htext, extractAll, hone a List.mem_cons_self ws hws]
      exact congrArg (a :: ·) hrest

/-- Every record was taken off some text. -/
theorem exists_of_mem_extractAll {extract : List UInt8 → Option (α × List UInt8)} {fuel : Nat}
    {text : List UInt8} {a : α} (h : a ∈ extractAll extract fuel text) :
    ∃ text' rest, extract text' = some (a, rest) := by
  induction fuel generalizing text with
  | zero => cases h
  | succ fuel ih =>
    unfold extractAll at h
    split at h
    · cases h
    · rename_i hone
      rcases List.mem_cons.mp h with rfl | h
      · exact ⟨_, _, hone⟩
      · exact ih h

end Records

end Picon.Lib
