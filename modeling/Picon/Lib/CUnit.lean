import Picon.Lib.CText

/-!
# C text: constant arrays and functions that only call

Declarations of a translation unit, read from its tokens: constant arrays whose
initializer is one string, or a list of pairs of a number and a string; and a
function that calls others declared in front of it. A string has a NUL behind
it that is not written.
-/

namespace Picon.Lib

/-- The bytes of ASCII text. -/
def ascii (s : String) : List UInt8 := s.toList.map fun c => UInt8.ofNat c.toNat

def Token.keyword (s : String) : Token := .word (ascii s)

inductive Initializer where
  | string (bytes : List UInt8)
  | pairs (items : List (Nat × List UInt8))
  deriving DecidableEq, Repr

/-- `static const type name[] = init;` -/
structure ConstArray where
  type : List UInt8
  name : List UInt8
  init : Initializer
  deriving DecidableEq, Repr

/-- `void __attribute__((visibility("…"))) name(void) { … }`, with what is
declared in front of it. -/
structure CallingFunction where
  name : List UInt8
  visibility : List UInt8
  calls : List (List UInt8)
  deriving DecidableEq, Repr

/-! ### Readers -/

/-- The tokens that must come next. -/
def expect : List Token → List Token → Option (List Token)
  | [], ts => some ts
  | _ :: _, [] => none
  | t :: ts, u :: us => if t = u then expect ts us else none

@[simp] theorem expect_nil (ts : List Token) : expect [] ts = some ts := by
  unfold expect
  rfl

@[simp] theorem expect_cons_self (t : Token) (ts us : List Token) :
    expect (t :: ts) (t :: us) = expect ts us := by
  rw [expect, if_pos rfl]

def readWord : List Token → Option (List UInt8 × List Token)
  | .word w :: ts => some (w, ts)
  | _ => none

def readNumber : List Token → Option (Nat × List Token)
  | .number n :: ts => some (n, ts)
  | _ => none

/-- The literals in front are one string. -/
def joinStrings : List Token → List UInt8 × List Token
  | .string s :: ts => (s ++ (joinStrings ts).1, (joinStrings ts).2)
  | ts => ([], ts)

def readString : List Token → Option (List UInt8 × List Token)
  | .string s :: ts => some (joinStrings (.string s :: ts))
  | _ => none

/-- As many items as there are, at most `fuel`, and what follows them. -/
def readMany {α : Type} (read : List Token → Option (α × List Token)) :
    Nat → List Token → List α × List Token
  | 0, ts => ([], ts)
  | fuel + 1, ts =>
    match read ts with
    | none => ([], ts)
    | some (a, rest) => (a :: (readMany read fuel rest).1, (readMany read fuel rest).2)

/-- `{n, "…"},`. -/
def readPair (ts : List Token) : Option ((Nat × List UInt8) × List Token) := do
  let ts ← expect [.punct 123] ts
  let (n, ts) ← readNumber ts
  let ts ← expect [.punct 44] ts
  let (s, ts) ← readString ts
  let ts ← expect [.punct 125, .punct 44] ts
  some ((n, s), ts)

def readInitializer (ts : List Token) : Option (Initializer × List Token) :=
  match expect [.punct 123] ts with
  | none => (readString ts).map fun r => (.string r.1, r.2)
  | some ts => do
    let items := readMany readPair ts.length ts
    let ts ← expect [.punct 125] items.2
    some (.pairs items.1, ts)

def readArray (ts : List Token) : Option (ConstArray × List Token) := do
  let ts ← expect [.keyword "static", .keyword "const"] ts
  let (type, ts) ← readWord ts
  let (name, ts) ← readWord ts
  let ts ← expect [.punct 91, .punct 93, .punct 61] ts
  let (init, ts) ← readInitializer ts
  let ts ← expect [.punct 59] ts
  some (⟨type, name, init⟩, ts)

/-- The constant arrays that a text consists of. -/
def readArrays (text : List UInt8) : Option (List ConstArray) := do
  let ts ← tokens text
  let arrays := readMany readArray ts.length ts
  if arrays.2 = [] then some arrays.1 else none

/-- `extern void name (void);` -/
def readExtern (ts : List Token) : Option (List UInt8 × List Token) := do
  let ts ← expect [.keyword "extern", .keyword "void"] ts
  let (name, ts) ← readWord ts
  let ts ← expect [.punct 40, .keyword "void", .punct 41, .punct 59] ts
  some (name, ts)

/-- `(void)name();` -/
def readCall (ts : List Token) : Option (List UInt8 × List Token) := do
  let ts ← expect [.punct 40, .keyword "void", .punct 41] ts
  let (name, ts) ← readWord ts
  let ts ← expect [.punct 40, .punct 41, .punct 59] ts
  some (name, ts)

/-- A function that consists of calls; what it calls has been declared. -/
def readFunction (text : List UInt8) : Option CallingFunction := do
  let ts ← tokens text
  let externs := readMany readExtern ts.length ts
  let ts ← expect [.keyword "void", .keyword "__attribute__", .punct 40, .punct 40,
    .keyword "visibility", .punct 40] externs.2
  let (visibility, ts) ← readString ts
  let ts ← expect [.punct 41, .punct 41, .punct 41] ts
  let (name, ts) ← readWord ts
  let ts ← expect [.punct 40, .keyword "void", .punct 41, .punct 123] ts
  let calls := readMany readCall ts.length ts
  if calls.2 = [.punct 125] ∧ ∀ name ∈ calls.1, name ∈ externs.1 then
    some ⟨name, visibility, calls.1⟩
  else none

/-! ### Lists of items -/

section Many

variable {α β : Type} {read : List Token → Option (α × List Token)} {body : β → List Token}
  {value : β → α} {l : List β}

theorem readMany_flatMap (hone : ∀ b ∈ l, ∀ ts, read (body b ++ ts) = some (value b, ts))
    {ts : List Token} (hend : read ts = none) {fuel : Nat} (hfuel : l.length ≤ fuel) :
    readMany read fuel (l.flatMap body ++ ts) = (l.map value, ts) := by
  induction l generalizing fuel with
  | nil =>
    cases fuel with
    | zero => rfl
    | succ fuel =>
      rw [List.flatMap_nil, List.nil_append, readMany, hend]
      rfl
  | cons b l ih =>
    cases fuel with
    | zero => cases hfuel
    | succ fuel =>
      have htail := ih (fun b hb => hone b (List.mem_cons_of_mem _ hb)) (Nat.le_of_succ_le_succ hfuel)
      rw [List.flatMap_cons, List.append_assoc, readMany, hone b List.mem_cons_self]
      show (value b :: (readMany read fuel _).1, (readMany read fuel _).2) = _
      rw [htail]
      rfl

/-- An item takes at least one token. -/
theorem length_le_flatMap (hbody : ∀ b ∈ l, body b ≠ []) : l.length ≤ (l.flatMap body).length := by
  induction l with
  | nil => exact Nat.zero_le _
  | cons b l ih =>
    have hpos : 0 < (body b).length := List.length_pos_iff.mpr (hbody b List.mem_cons_self)
    have hrest := ih fun b hb => hbody b (List.mem_cons_of_mem _ hb)
    rw [List.flatMap_cons, List.length_append, List.length_cons]
    omega

/-- The tokens themselves are fuel enough. -/
theorem readMany_all (hone : ∀ b ∈ l, ∀ ts, read (body b ++ ts) = some (value b, ts))
    (hbody : ∀ b ∈ l, body b ≠ []) {ts : List Token} (hend : read ts = none) :
    readMany read (l.flatMap body ++ ts).length (l.flatMap body ++ ts) = (l.map value, ts) := by
  refine readMany_flatMap hone hend ?_
  have hlen := length_le_flatMap hbody
  rw [List.length_append]
  omega

end Many

/-! ### What the readers find -/

theorem joinStrings_append (ss : List (List UInt8)) {ts : List Token}
    (hts : ∀ s us, ts ≠ .string s :: us) :
    joinStrings (ss.map Token.string ++ ts) = (ss.flatten, ts) := by
  induction ss with
  | nil =>
    rw [List.map_nil, List.nil_append]
    unfold joinStrings
    split
    · exact absurd rfl (hts _ _)
    · rfl
  | cons s ss ih =>
    rw [List.map_cons, List.cons_append, joinStrings, ih]
    rfl

/-- One string written as several literals. -/
theorem readString_append {ss : List (List UInt8)} (hss : ss ≠ []) {ts : List Token}
    (hts : ∀ s us, ts ≠ .string s :: us) :
    readString (ss.map Token.string ++ ts) = some (ss.flatten, ts) := by
  obtain ⟨s, ss, rfl⟩ := List.exists_cons_of_ne_nil hss
  exact congrArg some (joinStrings_append (s :: ss) hts)

/-- The tokens of a pair, its string in pieces. -/
def pairTokens (e : Nat × List (List UInt8)) : List Token :=
  [.punct 123, .number e.1, .punct 44] ++ (e.2.map Token.string ++ [.punct 125, .punct 44])

def pairValue (e : Nat × List (List UInt8)) : Nat × List UInt8 := (e.1, e.2.flatten)

theorem readPair_append {e : Nat × List (List UInt8)} (he : e.2 ≠ []) (ts : List Token) :
    readPair (pairTokens e ++ ts) = some (pairValue e, ts) := by
  have hstring : readString (e.2.map Token.string ++ .punct 125 :: .punct 44 :: ts) =
      some (e.2.flatten, .punct 125 :: .punct 44 :: ts) := readString_append he (by simp)
  simp [readPair, pairTokens, readNumber, hstring, pairValue]

/-- The tokens of an array, its initializer apart. -/
def arrayTokens (type name : List UInt8) (body : List Token) : List Token :=
  [.keyword "static", .keyword "const", .word type, .word name, .punct 91, .punct 93, .punct 61] ++
    (body ++ [.punct 59])

theorem readArray_append (type name : List UInt8) {body : List Token} {init : Initializer}
    (hinit : ∀ ts, readInitializer (body ++ .punct 59 :: ts) = some (init, .punct 59 :: ts))
    (ts : List Token) :
    readArray (arrayTokens type name body ++ ts) = some (⟨type, name, init⟩, ts) := by
  simp [readArray, arrayTokens, readWord, hinit]

theorem readInitializer_string {ss : List (List UInt8)} (hss : ss ≠ []) (ts : List Token) :
    readInitializer (ss.map Token.string ++ .punct 59 :: ts) =
      some (.string ss.flatten, .punct 59 :: ts) := by
  have hstring : readString (ss.map Token.string ++ .punct 59 :: ts) =
      some (ss.flatten, .punct 59 :: ts) := readString_append hss (by simp)
  obtain ⟨s, ss, rfl⟩ := List.exists_cons_of_ne_nil hss
  have hbrace : expect [.punct 123] ((s :: ss).map Token.string ++ .punct 59 :: ts) = none := by
    simp [expect]
  rw [readInitializer, hbrace, hstring]
  rfl

theorem readInitializer_pairs {items : List (Nat × List (List UInt8))}
    (hitems : ∀ e ∈ items, e.2 ≠ []) (ts : List Token) :
    readInitializer (.punct 123 :: (items.flatMap pairTokens ++ .punct 125 :: ts)) =
      some (.pairs (items.map pairValue), ts) := by
  have hend : readPair (.punct 125 :: ts) = none := by simp [readPair, expect]
  have hmany := readMany_all (fun e he => readPair_append (hitems e he))
    (fun e _ => by simp [pairTokens]) hend
  rw [readInitializer, expect_cons_self, expect_nil]
  dsimp only
  rw [hmany]
  rfl

/-- A text whose tokens are those of arrays, one after the other. -/
theorem readArrays_eq {β : Type} {text : List UInt8} {l : List β} {body : β → List Token}
    {value : β → ConstArray} (htext : Scans text (l.flatMap body))
    (hone : ∀ b ∈ l, ∀ ts, readArray (body b ++ ts) = some (value b, ts))
    (hbody : ∀ b ∈ l, body b ≠ []) : readArrays text = some (l.map value) := by
  have hmany := readMany_all hone hbody (show readArray [] = none from rfl)
  rw [List.append_nil] at hmany
  rw [readArrays, htext.tokens]
  simp only [Option.bind_eq_bind, Option.bind_some, hmany, if_true]

def externTokens (name : List UInt8) : List Token :=
  [.keyword "extern", .keyword "void", .word name, .punct 40, .keyword "void", .punct 41, .punct 59]

def callTokens (name : List UInt8) : List Token :=
  [.punct 40, .keyword "void", .punct 41, .word name, .punct 40, .punct 41, .punct 59]

/-- Everything of a function in front of its calls. -/
def headTokens (visibility name : List UInt8) : List Token :=
  [.keyword "void", .keyword "__attribute__", .punct 40, .punct 40, .keyword "visibility",
    .punct 40, .string visibility, .punct 41, .punct 41, .punct 41, .word name, .punct 40,
    .keyword "void", .punct 41, .punct 123]

theorem readExtern_append (name : List UInt8) (ts : List Token) :
    readExtern (externTokens name ++ ts) = some (name, ts) := by
  simp [readExtern, externTokens, readWord]

theorem readCall_append (name : List UInt8) (ts : List Token) :
    readCall (callTokens name ++ ts) = some (name, ts) := by
  simp [readCall, callTokens, readWord]

/-- A function that calls what is declared in front of it, in the same order. -/
theorem readFunction_eq {text visibility name : List UInt8} {names : List (List UInt8)}
    (htext : Scans text (names.flatMap externTokens ++
      (headTokens visibility name ++ (names.flatMap callTokens ++ [.punct 125])))) :
    readFunction text = some ⟨name, visibility, names⟩ := by
  have hdeclared : ∀ ts, readExtern (headTokens visibility name ++ ts) = none := by
    intro ts
    simp [readExtern, headTokens, expect, Token.keyword, ascii]
  have hdeclarations := readMany_all (fun n _ => readExtern_append n)
    (fun n (_ : n ∈ names) => List.cons_ne_nil _ _)
    (hdeclared (names.flatMap callTokens ++ [.punct 125]))
  have hcalls := readMany_all (fun n _ => readCall_append n)
    (fun n (_ : n ∈ names) => List.cons_ne_nil _ _)
    (show readCall [.punct 125] = none from rfl)
  rw [List.map_id'] at hdeclarations hcalls
  rw [readFunction, htext.tokens]
  simp only [Option.bind_eq_bind, Option.bind_some, hdeclarations]
  generalize names.flatMap callTokens ++ [Token.punct 125] = body at hcalls
  simp [headTokens, readString, joinStrings, readWord, hcalls]

end Picon.Lib
