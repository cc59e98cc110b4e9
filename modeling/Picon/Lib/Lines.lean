import Mathlib.Data.List.DropRight
import Picon.Lib.Text

/-!
# Text, line by line

A file the way Python reads it: its lines one after the other, each stripped of
the white space at its end and split into words. Lines that were written with
their ends are read back, and so are words written with a space behind each.
-/

namespace Picon.Lib

/-- `for line in f`, the lines without their ends. What follows the last end is
a line unless it is empty. -/
def textLines (text : List UInt8) : List (List UInt8) :=
  if (text.splitOn 10).getLast? = some [] then (text.splitOn 10).dropLast else text.splitOn 10

/-- `line.rstrip()`. -/
def rstrip (line : List UInt8) : List UInt8 := line.rdropWhile isSpace

/-- `line.split()`. -/
def splitWords (line : List UInt8) : List (List UInt8) :=
  (line.splitOnP isSpace).filter fun word => !word.isEmpty

/-- `int(word)`; `none` is its `ValueError`. -/
def parseInt (word : List UInt8) : Option Int :=
  let signed := takeSign word
  if signed.2 ≠ [] ∧ signed.2.all isDigit then
    some (if signed.1 then -(ofDecimal signed.2 : Int) else ofDecimal signed.2)
  else none

/-! ### Lines -/

theorem splitOn_lines {lines : List (List UInt8)} (h : ∀ line ∈ lines, 10 ∉ line) :
    (lines.flatMap (· ++ [10])).splitOn 10 = lines ++ [[]] := by
  induction lines with
  | nil => rfl
  | cons line lines ih =>
    have hline : 10 ∉ line := h line List.mem_cons_self
    rw [List.flatMap_cons, List.append_assoc, List.singleton_append,
      List.splitOn_append_cons_self_of_not_mem hline,
      ih fun line hline => h line (List.mem_cons_of_mem _ hline)]
    rfl

/-- Lines written with their ends are the lines of the file. -/
theorem textLines_flatMap {lines : List (List UInt8)} (h : ∀ line ∈ lines, 10 ∉ line) :
    textLines (lines.flatMap (· ++ [10])) = lines := by
  rw [textLines, splitOn_lines h, List.getLast?_concat, if_pos rfl, List.dropLast_concat]

/-! ### Words -/

/-- Other bytes around a word make a longer word. -/
theorem isWord_surround {w before after : List UInt8} (hbefore : before.any isSpace = false)
    (hw : IsWord w) (hafter : after.any isSpace = false) :
    IsWord (before ++ (w ++ after)) := by
  have hfree : ∀ {l : List UInt8}, l.any isSpace = false → ∀ b ∈ l, isSpace b = false := by
    intro l hl b hb
    simpa using List.any_eq_false.mp hl b hb
  refine ⟨?_, fun b hb => ?_⟩
  · apply List.append_ne_nil_of_right_ne_nil
    exact List.append_ne_nil_of_left_ne_nil hw.1 _
  · rcases List.mem_append.mp hb with hb | hb
    · exact hfree hbefore b hb
    · rcases List.mem_append.mp hb with hb | hb
      · exact hw.2 b hb
      · exact hfree hafter b hb

theorem splitWords_append_cons (line rest : List UInt8) {c : UInt8} (hc : isSpace c = true) :
    splitWords (line ++ c :: rest) = splitWords line ++ splitWords rest := by
  unfold splitWords
  rw [List.splitOnP_append_cons line rest hc, List.filter_append]

theorem splitWords_word {w : List UInt8} (hw : IsWord w) : splitWords w = [w] := by
  unfold splitWords
  rw [List.splitOnP_eq_singleton hw.2]
  simpa using hw.1

/-- A word and a space come off the front. -/
theorem splitWords_cons {w : List UInt8} (hw : IsWord w) (rest : List UInt8) :
    splitWords (w ++ 32 :: rest) = w :: splitWords rest := by
  rw [splitWords_append_cons w rest (show isSpace 32 = true by decide), splitWords_word hw]
  rfl

theorem splitWords_flatMap {words : List (List UInt8)} (h : ∀ w ∈ words, IsWord w) :
    splitWords (words.flatMap (· ++ [32])) = words := by
  induction words with
  | nil => rfl
  | cons w words ih =>
    rw [List.flatMap_cons, List.append_assoc, List.singleton_append,
      splitWords_cons (h w List.mem_cons_self), ih fun w hw => h w (List.mem_cons_of_mem _ hw)]

/-- The white space at the end of a line separates no further word. -/
theorem splitWords_rstrip (line : List UInt8) : splitWords (rstrip line) = splitWords line := by
  unfold rstrip
  induction line using List.reverseRecOn with
  | nil => rfl
  | append_singleton line b ih =>
    by_cases hb : isSpace b = true
    · rw [List.rdropWhile_concat_pos _ _ _ hb, ih, splitWords_append_cons line [] hb]
      exact (List.append_nil _).symm
    · rw [List.rdropWhile_concat_neg _ _ _ hb]

/-- A byte that is not white space stays at the front. -/
theorem rstrip_cons {b : UInt8} (hb : isSpace b = false) (line : List UInt8) :
    rstrip (b :: line) = b :: rstrip line := by
  unfold rstrip
  induction line using List.reverseRecOn with
  | nil => simp [List.rdropWhile_singleton, hb]
  | append_singleton line c ih =>
    rw [← List.cons_append]
    by_cases hc : isSpace c = true
    · rw [List.rdropWhile_concat_pos _ _ _ hc, List.rdropWhile_concat_pos _ _ _ hc, ih]
    · rw [List.rdropWhile_concat_neg _ _ _ hc, List.rdropWhile_concat_neg _ _ _ hc]
      rfl

/-! ### Numbers -/

theorem parseInt_decimal (n : Nat) : parseInt (decimal n) = some (n : Int) := by
  have hsign : takeSign (decimal n) = (false, decimal n) := by
    simpa using takeSign_decimal n []
  have hdigits : (decimal n).all isDigit = true := List.all_eq_true.mpr decimal_isDigit
  unfold parseInt
  rw [hsign]
  dsimp only
  rw [if_pos ⟨(decimal_isWord n).1, hdigits⟩, ofDecimal_decimal]
  rfl

theorem parseInt_decimalInt (n : Int) : parseInt (decimalInt n) = some n := by
  obtain ⟨m, rfl | rfl⟩ := n.eq_nat_or_neg
  · rw [decimalInt_natCast, parseInt_decimal]
  · by_cases hm : m = 0
    · subst hm
      exact parseInt_decimal 0
    · have hneg : (-(m : Int)) < 0 := by omega
      have hdigits : (decimal m).all isDigit = true := List.all_eq_true.mpr decimal_isDigit
      rw [decimalInt, if_pos hneg, Int.natAbs_neg, Int.natAbs_natCast]
      unfold parseInt
      show (if decimal m ≠ [] ∧ (decimal m).all isDigit = true then
        some (-(ofDecimal (decimal m) : Int)) else none) = _
      rw [if_pos ⟨(decimal_isWord m).1, hdigits⟩, ofDecimal_decimal]

theorem mapM_parseInt (ns : List Int) : (ns.map decimalInt).mapM parseInt = some ns := by
  induction ns with
  | nil => rfl
  | cons n ns ih =>
    rw [List.map_cons, List.mapM_cons, parseInt_decimalInt, ih]
    rfl

theorem decimal_notMem {n : Nat} {b : UInt8} (hb : isDigit b = false) : b ∉ decimal n := by
  intro hmem
  rw [decimal_isDigit b hmem] at hb
  cases hb

theorem decimalInt_notMem {n : Int} {b : UInt8} (hb : isDigit b = false) (hsign : b ≠ 45) :
    b ∉ decimalInt n := by
  unfold decimalInt
  split
  · exact List.not_mem_cons_of_ne_of_not_mem hsign (decimal_notMem hb)
  · exact decimal_notMem hb

end Picon.Lib
