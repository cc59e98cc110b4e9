import Mathlib.Data.List.Forall2
import Mathlib.Data.Nat.Digits.Lemmas
import Picon.Lib.Text

/-!
# C text: tokens and string literals

The lexer of a fragment of C as a machine that takes one byte at a time: words,
decimal constants, the punctuators of declarations and calls, and string
literals with all their escapes. Adjacent literals are one string. A machine
has no position to keep, so what a text is read as follows from its pieces.
-/

namespace Picon.Lib

/-- The tokens of the fragment. -/
inductive Token where
  | word (w : List UInt8)
  | number (n : Nat)
  | string (s : List UInt8)
  | punct (c : UInt8)
  deriving DecidableEq, Repr

/-! ### Escapes -/

/-- Inside a literal: between characters, behind a backslash, in a hexadecimal
escape (`none` before its first digit), in an octal one with room for more. -/
inductive LiteralState where
  | plain
  | backslash
  | hex (value : Option Nat)
  | octal (value left : Nat)
  deriving DecidableEq, Repr

def hexValue (c : UInt8) : Option Nat :=
  if 48 ≤ c ∧ c ≤ 57 then some (c.toNat - 48)
  else if 97 ≤ c ∧ c ≤ 102 then some (c.toNat - 87)
  else if 65 ≤ c ∧ c ≤ 70 then some (c.toNat - 55)
  else none

def octalValue (c : UInt8) : Option Nat :=
  if 48 ≤ c ∧ c ≤ 55 then some (c.toNat - 48) else none

/-- `\n` and the like. -/
def simpleEscape (c : UInt8) : Option UInt8 :=
  if c = 97 then some 7
  else if c = 98 then some 8
  else if c = 102 then some 12
  else if c = 110 then some 10
  else if c = 114 then some 13
  else if c = 116 then some 9
  else if c = 118 then some 11
  else if c = 34 ∨ c = 39 ∨ c = 63 ∨ c = 92 then some c
  else none

/-- What one more byte adds to a literal, and the next state; no state when it
closes the literal. A literal does not go past the end of a line. -/
def plainStep (c : UInt8) : Option (List UInt8 × Option LiteralState) :=
  if c = 34 then some ([], none)
  else if c = 92 then some ([], some .backslash)
  else if c = 10 then none
  else some ([c], some .plain)

/-- An escape that has ended, and the byte behind it. An escape stands for one
byte. -/
def endEscape (value : Nat) (c : UInt8) : Option (List UInt8 × Option LiteralState) :=
  if value < 256 then (plainStep c).map fun r => (UInt8.ofNat value :: r.1, r.2) else none

def LiteralState.step : LiteralState → UInt8 → Option (List UInt8 × Option LiteralState)
  | .plain, c => plainStep c
  | .backslash, c =>
    if c = 120 then some ([], some (.hex none))
    else
      match octalValue c with
      | some d => some ([], some (.octal d 2))
      | none => (simpleEscape c).map fun b => ([b], some .plain)
  | .hex value, c =>
    match hexValue c, value with
    -- as many digits as there are
    | some d, _ => some ([], some (.hex (some (16 * value.getD 0 + d))))
    | none, some n => endEscape n c
    | none, none => none
  | .octal value 0, c => endEscape value c
  | .octal value (left + 1), c =>
    match octalValue c with
    | some d => some ([], some (.octal (8 * value + d) left))
    | none => endEscape value c

/-! ### Tokens -/

def isWordStart (c : UInt8) : Bool :=
  (65 ≤ c && c ≤ 90) || (97 ≤ c && c ≤ 122) || c = 95

def isWordByte (c : UInt8) : Bool := isWordStart c || isDigit c

/-- `( ) * , ; = [ ] { }`, all of them tokens by themselves here. -/
def isPunct (c : UInt8) : Bool :=
  c = 40 || c = 41 || c = 42 || c = 44 || c = 59 || c = 61 || c = 91 || c = 93 || c = 123 || c = 125

/-- A word, or a decimal constant without a suffix. A leading zero would make it
octal. -/
def wordToken (w : List UInt8) : Option Token :=
  match w with
  | [] => none
  | c :: rest =>
    if isWordStart c then some (.word w)
    else if w.all isDigit ∧ (c ≠ 48 ∨ rest = []) then some (.number (ofDecimal w))
    else none

inductive LexState where
  | between
  | word (w : List UInt8)
  | literal (s : List UInt8) (state : LiteralState)
  deriving DecidableEq, Repr

/-- A byte outside of words and literals. -/
def startToken (c : UInt8) : Option (List Token × LexState) :=
  if isSpace c then some ([], .between)
  else if isWordByte c then some ([], .word [c])
  else if c = 34 then some ([], .literal [] .plain)
  else if isPunct c then some ([.punct c], .between)
  else none

def LexState.step : LexState → UInt8 → Option (List Token × LexState)
  | .between, c => startToken c
  | .word w, c =>
    if isWordByte c then some ([], .word (w ++ [c]))
    else do
      let token ← wordToken w
      let r ← startToken c
      some (token :: r.1, r.2)
  | .literal s state, c =>
    match state.step c with
    | none => none
    | some (out, some state') => some ([], .literal (s ++ out) state')
    | some (out, none) => some ([.string (s ++ out)], .between)

/-- A piece of text, from one state to another. -/
def scan : LexState → List UInt8 → Option (List Token × LexState)
  | state, [] => some ([], state)
  | state, c :: text => do
    let r ← state.step c
    let r' ← scan r.2 text
    some (r.1 ++ r'.1, r'.2)

/-- The tokens of a text that ends between two of them. -/
def tokens (text : List UInt8) : Option (List Token) :=
  match scan .between text with
  | some (out, .between) => some out
  | _ => none

/-! ### Escaped bytes -/

/-- One digit of `%x`. -/
def hexDigit (d : Nat) : UInt8 := if d < 10 then UInt8.ofNat (48 + d) else UInt8.ofNat (87 + d)

/-- `"\\x%.2x" % ord(c)`. -/
def hexEscape (c : UInt8) : List UInt8 :=
  [92, 120, hexDigit (c.toNat / 16), hexDigit (c.toNat % 16)]

/-- `[s[i:i+n] for i in range(0, len(s), n)]`. -/
def slices {α : Type} (n : Nat) (s : List α) : List (List α) :=
  (List.range ((s.length + n - 1) / n)).map fun i => (s.drop (i * n)).take n

/-- `'"%s"'`. -/
def quoted (s : List UInt8) : List UInt8 := 34 :: (s ++ [34])

/-! ### Pieces of text -/

/-- The piece is read as these tokens, whatever stands behind it. -/
def Scans (text : List UInt8) (out : List Token) : Prop :=
  scan .between text = some (out, .between)

theorem scan_append (state : LexState) (a b : List UInt8) :
    scan state (a ++ b) = (scan state a).bind fun r =>
      (scan r.2 b).map fun r' => (r.1 ++ r'.1, r'.2) := by
  induction a generalizing state with
  | nil =>
    show scan state b = (scan state b).map fun r' => ([] ++ r'.1, r'.2)
    simp
  | cons c a ih =>
    rw [List.cons_append, scan, scan]
    cases hstep : state.step c with
    | none => rfl
    | some r =>
      simp only [Option.bind_eq_bind, Option.bind_some, ih]
      cases hfirst : scan r.2 a with
      | none => rfl
      | some r' =>
        cases hsecond : scan r'.2 b with
        | none => simp [hsecond]
        | some r'' => simp [hsecond]

theorem scan_trans {s₁ s₂ s₃ : LexState} {a b : List UInt8} {out out' : List Token}
    (ha : scan s₁ a = some (out, s₂)) (hb : scan s₂ b = some (out', s₃)) :
    scan s₁ (a ++ b) = some (out ++ out', s₃) := by
  rw [scan_append, ha, Option.bind_some, hb]
  rfl

theorem scan_singleton (state : LexState) (c : UInt8) : scan state [c] = state.step c := by
  rw [scan]
  cases state.step c with
  | none => rfl
  | some r =>
    show some (r.1 ++ [], r.2) = some r
    rw [List.append_nil]

theorem Scans.nil : Scans [] [] := rfl

theorem Scans.append {a b : List UInt8} {out out' : List Token} (ha : Scans a out)
    (hb : Scans b out') : Scans (a ++ b) (out ++ out') :=
  scan_trans ha hb

theorem Scans.tokens {text : List UInt8} {out : List Token} (h : Scans text out) :
    tokens text = some out := by
  unfold Lib.tokens
  rw [show scan .between text = some (out, .between) from h]

theorem scans_space {c : UInt8} (hc : isSpace c = true) : Scans [c] [] := by
  show scan .between [c] = _
  rw [scan_singleton]
  show startToken c = _
  rw [startToken, if_pos hc]

/-- Lines joined by their ends. -/
theorem Scans.intercalate {lines : List (List UInt8)} {outs : List (List Token)}
    (h : List.Forall₂ Scans lines outs) : Scans (List.intercalate [10] lines) outs.flatten := by
  induction h with
  | nil => exact .nil
  | @cons line out lines outs hline hlines ih =>
    cases hlines with
    | nil => simpa [List.intercalate] using hline
    | cons hnext hlines =>
      have hend : Scans [10] [] := scans_space rfl
      have hjoin := (hline.append hend).append ih
      simpa [List.intercalate] using hjoin

theorem forall₂_scans {α : Type} {f : α → List UInt8} {out : α → List Token} {l : List α}
    (h : ∀ a ∈ l, Scans (f a) (out a)) : List.Forall₂ Scans (l.map f) (l.map out) := by
  rw [List.forall₂_map_left_iff, List.forall₂_map_right_iff]
  exact List.forall₂_same.mpr h

theorem forall₂_scans_append {lines lines' : List (List UInt8)} {outs outs' : List (List Token)}
    (h : List.Forall₂ Scans lines outs) (h' : List.Forall₂ Scans lines' outs') :
    List.Forall₂ Scans (lines ++ lines') (outs ++ outs') :=
  List.rel_append h h'

theorem isSpace_of_isWordByte {c : UInt8} (h : isWordByte c = true) : isSpace c = false := by
  simp only [isWordByte, isWordStart, isDigit, Bool.or_eq_true, Bool.and_eq_true, decide_eq_true_eq,
    UInt8.le_iff_toNat_le, ← UInt8.toNat_inj] at h
  simp only [isSpace, UInt8.le_iff_toNat_le, ← UInt8.toNat_inj, Bool.or_eq_false_iff,
    Bool.and_eq_false_iff, decide_eq_false_iff_not]
  simp at h ⊢
  omega

/-- A run of word bytes behind a first one. -/
theorem scan_word {w : List UInt8} (v : List UInt8) (hw : ∀ c ∈ w, isWordByte c = true) :
    scan (.word v) w = some ([], .word (v ++ w)) := by
  induction w generalizing v with
  | nil => rw [scan, List.append_nil]
  | cons c w ih =>
    have hc : isWordByte c = true := hw c List.mem_cons_self
    have hrest := ih (v ++ [c]) fun c hc => hw c (List.mem_cons_of_mem _ hc)
    have hstep : (LexState.word v).step c = some ([], .word (v ++ [c])) := by
      show (if isWordByte c then _ else _) = _
      rw [if_pos hc]
    rw [scan, hstep]
    simp [hrest]

/-- A word and a byte behind it that is not part of it. -/
theorem scans_word {w : List UInt8} (hw : ∀ c ∈ w, isWordByte c = true) {token : Token}
    (htoken : wordToken w = some token) {c : UInt8} {out : List Token}
    (hc : isWordByte c = false) (hnext : Scans [c] out) : Scans (w ++ [c]) (token :: out) := by
  cases w with
  | nil => cases htoken
  | cons b w =>
    have hb : isWordByte b = true := hw b List.mem_cons_self
    have hfirst : scan .between [b] = some ([], .word [b]) := by
      rw [scan_singleton]
      show startToken b = _
      rw [startToken, if_neg (by simp [isSpace_of_isWordByte hb]), if_pos hb]
    have hword := scan_word [b] fun c hc => hw c (List.mem_cons_of_mem _ hc)
    have hlast : scan (.word (b :: w)) [c] = some (token :: out, .between) := by
      have hnext' : startToken c = some (out, .between) := by
        rw [← show scan .between [c] = startToken c from scan_singleton _ _]
        exact hnext
      rw [scan_singleton]
      show (if isWordByte c then _ else _) = _
      rw [if_neg (by simp [hc]), htoken, hnext']
      rfl
    exact scan_trans (scan_trans hfirst hword) hlast

/-- An identifier of C. -/
def IsIdentifier (w : List UInt8) : Prop :=
  w.head?.any isWordStart = true ∧ w.all isWordByte = true

instance (w : List UInt8) : Decidable (IsIdentifier w) := instDecidableAnd

theorem IsIdentifier.wordToken {w : List UInt8} (h : IsIdentifier w) :
    wordToken w = some (.word w) := by
  cases w with
  | nil => cases h.1
  | cons b w =>
    have hstart : isWordStart b = true := h.1
    show (if isWordStart b then _ else _) = _
    rw [if_pos hstart]

theorem IsIdentifier.scans {w : List UInt8} (h : IsIdentifier w) {c : UInt8} {out : List Token}
    (hc : isWordByte c = false) (hnext : Scans [c] out) : Scans (w ++ [c]) (.word w :: out) :=
  scans_word (List.all_eq_true.mp h.2) h.wordToken hc hnext

theorem not_isWordStart {c : UInt8} (h : isDigit c = true) : isWordStart c = false := by
  simp only [isDigit, Bool.and_eq_true, decide_eq_true_eq, UInt8.le_iff_toNat_le] at h
  simp only [isWordStart, UInt8.le_iff_toNat_le, ← UInt8.toNat_inj, Bool.or_eq_false_iff,
    Bool.and_eq_false_iff, decide_eq_false_iff_not]
  simp at h ⊢
  omega

/-- Only zero itself is written with a zero in front. -/
theorem decimal_head_ne_zero {n : Nat} {c : UInt8} {rest : List UInt8}
    (h : decimal n = c :: rest) : c ≠ 48 ∨ rest = [] := by
  unfold decimal at h
  split at h
  · exact .inr (List.cons.inj h).2.symm
  · rename_i hn
    refine .inl fun hc => ?_
    have hdigits : Nat.digits 10 n ≠ [] := Nat.digits_ne_nil_iff_ne_zero.mpr hn
    have hlast := Nat.getLast_digit_ne_zero 10 hn
    have hhead : UInt8.ofNat (48 + (Nat.digits 10 n).getLast hdigits) = c := by
      have hrev := congrArg List.head? h
      rw [List.head?_reverse, List.getLast?_map, List.getLast?_eq_some_getLast hdigits] at hrev
      exact Option.some.inj hrev
    have hlt : (Nat.digits 10 n).getLast hdigits < 10 :=
      Nat.digits_lt_base (by decide) (List.getLast_mem hdigits)
    have hvalue := congrArg UInt8.toNat (hhead.trans hc)
    rw [UInt8.toNat_ofNat', show (48 : UInt8).toNat = 48 from rfl] at hvalue
    omega

/-- A number that `%d` wrote. -/
theorem wordToken_decimal (n : Nat) : wordToken (decimal n) = some (.number n) := by
  have hdigits : (decimal n).all isDigit = true := List.all_eq_true.mpr decimal_isDigit
  have hvalue := ofDecimal_decimal n
  obtain ⟨c, rest, hc⟩ := List.exists_cons_of_ne_nil (decimal_isWord n).1
  have hstart := not_isWordStart (decimal_isDigit c (hc ▸ List.mem_cons_self))
  have hzero := decimal_head_ne_zero hc
  rw [hc] at hdigits hvalue ⊢
  show (if isWordStart c then _ else _) = _
  rw [if_neg (by simp [hstart]), if_pos ⟨hdigits, hzero⟩, hvalue]

/-! ### Literals of escaped bytes -/

theorem hexValue_hexDigit : ∀ d < 16, hexValue (hexDigit d) = some d := by decide

theorem scan_hexDigits (s : List UInt8) (b : UInt8) :
    scan (.literal s (.hex none)) [hexDigit (b.toNat / 16), hexDigit (b.toNat % 16)] =
      some ([], .literal s (.hex (some b.toNat))) := by
  have hlt := b.toNat_lt
  have hhigh := hexValue_hexDigit (b.toNat / 16) (by omega)
  have hlow := hexValue_hexDigit (b.toNat % 16) (by omega)
  have hvalue : 16 * (b.toNat / 16) + b.toNat % 16 = b.toNat := by omega
  simp [scan, LexState.step, LiteralState.step, hhigh, hlow, hvalue]

/-- The backslash ends an escape that is under way, or follows a character. -/
theorem scan_hexEscape {s s' : List UInt8} {state : LiteralState} (b : UInt8)
    (hback : state.step 92 = some (s', some .backslash)) :
    scan (.literal s state) (hexEscape b) =
      some ([], .literal (s ++ s') (.hex (some b.toNat))) := by
  have hslash : scan (.literal s state) [92] = some ([], .literal (s ++ s') .backslash) := by
    rw [scan_singleton, LexState.step, hback]
  have hletter : scan (.literal (s ++ s') .backslash) [120] =
      some ([], .literal (s ++ s') (.hex none)) := by
    rw [scan_singleton]
    simp [LexState.step, LiteralState.step]
  exact scan_trans hslash (scan_trans hletter (scan_hexDigits _ _))

theorem hex_step (v c : UInt8) (hc : hexValue c = none) :
    LiteralState.step (.hex (some v.toNat)) c = (plainStep c).map fun r => (v :: r.1, r.2) := by
  have hlt := v.toNat_lt
  show (match hexValue c, some v.toNat with
    | some d, _ => _
    | none, some n => endEscape n c
    | none, none => none) = _
  rw [hc]
  show endEscape v.toNat c = _
  rw [endEscape, if_pos (by omega), UInt8.ofNat_toNat]

/-- Behind a first escape, the others and the closing quote. -/
theorem scan_escapes (s : List UInt8) (v : UInt8) (bs : List UInt8) :
    scan (.literal s (.hex (some v.toNat))) (bs.flatMap hexEscape ++ [34]) =
      some ([.string (s ++ v :: bs)], .between) := by
  induction bs generalizing s v with
  | nil =>
    show scan _ [34] = _
    rw [scan_singleton]
    simp [LexState.step, hex_step v 34 rfl, plainStep]
  | cons b bs ih =>
    have hescape := scan_hexEscape (s := s) b (hex_step v 92 rfl)
    have hrest := scan_trans hescape (ih (s ++ [v]) b)
    rw [List.flatMap_cons, List.append_assoc]
    simpa using hrest

/-- A quoted row of escapes is the string of the bytes that were escaped. -/
theorem scans_literal (bs : List UInt8) : Scans (quoted (bs.flatMap hexEscape)) [.string bs] := by
  have hopen : scan .between [34] = some ([], .literal [] .plain) := by decide
  cases bs with
  | nil => rfl
  | cons b bs =>
    have hback : LiteralState.plain.step 92 = some ([], some .backslash) := rfl
    have hall := scan_trans hopen (scan_trans (scan_hexEscape b hback) (scan_escapes [] b bs))
    unfold Scans
    simpa [quoted] using hall

/-! ### Slices -/

theorem slices_nil {α : Type} {n : Nat} (hn : 0 < n) : slices n ([] : List α) = [] := by
  have hcount : (0 + n - 1) / n = 0 := Nat.div_eq_of_lt (by omega)
  rw [slices, List.length_nil, hcount]
  rfl

theorem slices_cons {α : Type} {n : Nat} (hn : 0 < n) {s : List α} (hs : s ≠ []) :
    slices n s = s.take n :: slices n (s.drop n) := by
  have hlen : 0 < s.length := List.length_pos_iff.mpr hs
  have hcount : (s.length + n - 1) / n = ((s.drop n).length + n - 1) / n + 1 := by
    rw [List.length_drop, ← Nat.add_div_right _ hn]
    rcases Nat.le_total n s.length with hle | hle
    · rw [show s.length - n + n - 1 + n = s.length + n - 1 by omega]
    · rw [show s.length - n + n - 1 + n = n - 1 + n by omega, Nat.add_div_right _ hn,
        Nat.div_eq_of_lt (show n - 1 < n by omega),
        show s.length + n - 1 = s.length - 1 + n by omega, Nat.add_div_right _ hn,
        Nat.div_eq_of_lt (show s.length - 1 < n by omega)]
  rw [slices, slices, hcount, List.range_succ_eq_map, List.map_cons, List.map_map]
  simp only [Nat.zero_mul, List.drop_zero, List.drop_drop]
  refine congrArg _ (List.map_congr_left fun i _ => ?_)
  show (s.drop ((i + 1) * n)).take n = _
  rw [Nat.succ_mul, Nat.add_comm]

/-- The slices put together again. -/
theorem slices_flatten {α : Type} {n : Nat} (hn : 0 < n) (s : List α) :
    (slices n s).flatten = s := by
  induction hlen : s.length using Nat.strong_induction_on generalizing s with
  | _ m ih =>
    by_cases hs : s = []
    · rw [hs, slices_nil hn]
      rfl
    · have hpos : 0 < s.length := List.length_pos_iff.mpr hs
      have hdrop : (s.drop n).length < m := by
        rw [List.length_drop]
        omega
      rw [slices_cons hn hs, List.flatten_cons, ih _ hdrop _ rfl, List.take_append_drop]

section Width

variable {α β : Type} {f : α → List β} {w : Nat}

theorem take_flatMap (hf : ∀ a, (f a).length = w) (k : Nat) (l : List α) :
    (l.flatMap f).take (w * k) = (l.take k).flatMap f ∧
      (l.flatMap f).drop (w * k) = (l.drop k).flatMap f := by
  induction k generalizing l with
  | zero => simp
  | succ k ih =>
    cases l with
    | nil => simp
    | cons a l =>
      obtain ⟨htake, hdrop⟩ := ih l
      have hlen : w * (k + 1) = (f a).length + w * k := by
        rw [hf a, Nat.mul_succ, Nat.add_comm]
      rw [List.flatMap_cons, hlen, List.take_length_add_append, List.drop_length_add_append, htake,
        hdrop]
      exact ⟨rfl, rfl⟩

/-- A slice as wide as `k` items of `w` elements each holds whole items. -/
theorem slices_flatMap (hw : 0 < w) {k : Nat} (hk : 0 < k) (hf : ∀ a, (f a).length = w)
    (l : List α) : slices (w * k) (l.flatMap f) = (slices k l).map (·.flatMap f) := by
  have hwk : 0 < w * k := Nat.mul_pos hw hk
  induction hlen : l.length using Nat.strong_induction_on generalizing l with
  | _ m ih =>
    cases l with
    | nil => rw [slices_nil hk, List.flatMap_nil, slices_nil hwk, List.map_nil]
    | cons a l =>
      have hne : (a :: l).flatMap f ≠ [] := by
        rw [List.flatMap_cons]
        refine List.append_ne_nil_of_left_ne_nil ?_ _
        rw [← List.length_pos_iff, hf a]
        exact hw
      have hdrop : ((a :: l).drop k).length < m := by
        rw [List.length_drop, hlen]
        rw [List.length_cons] at hlen
        omega
      obtain ⟨htake, hrest⟩ := take_flatMap hf k (a :: l)
      rw [slices_cons hwk hne, slices_cons hk (List.cons_ne_nil a l), List.map_cons, htake, hrest,
        ih _ hdrop _ rfl]

end Width

end Picon.Lib
