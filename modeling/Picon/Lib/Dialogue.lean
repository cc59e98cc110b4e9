import Mathlib.Data.List.Basic
import Mathlib.Logic.Function.Basic
import Picon.Lib.Trace

/-!
# Two processes over FIFO channels

Deterministic processes with blocking reads. A process that is given the
messages of a script does the actions of the script; when the scripts of two
processes fit each other, every interleaving of the two stays on both.
-/

namespace Picon.Lib

/-- What a process does next: nothing any more, a step of its own, a write, or a
blocking read of one channel. It writes `μ c` and reads `ν c` on channel `c`. -/
inductive Next (κ : Type*) (μ ν : κ → Type*) (σ : Type*) where
  | halt
  | inner (s : σ)
  | send (c : κ) (m : μ c) (s : σ)
  | recv (c : κ) (k : ν c → σ)

/-- Without a message it does nothing. -/
def Next.Quiet {κ : Type*} {μ ν : κ → Type*} {σ : Type*} : Next κ μ ν σ → Prop
  | .halt | .recv _ _ => True
  | .inner _ | .send _ _ _ => False

/-- What it has done. -/
inductive Act (κ : Type*) (μ ν : κ → Type*) where
  | inner
  | send (c : κ) (m : μ c)
  | recv (c : κ) (m : ν c)

/-- A process. The tag says what it is busy with in a state. -/
structure Process (κ : Type*) (μ ν : κ → Type*) (σ τ : Type*) where
  next : σ → Next κ μ ν σ
  tag : σ → τ

section Histories

variable {κ : Type*} [DecidableEq κ] {μ ν : κ → Type*} {τ : Type*}

def Act.sent (c : κ) : Act κ μ ν → Option (μ c)
  | .send d m => if h : d = c then some (h ▸ m) else none
  | .inner | .recv _ _ => none

def Act.received (c : κ) : Act κ μ ν → Option (ν c)
  | .recv d m => if h : d = c then some (h ▸ m) else none
  | .inner | .send _ _ => none

@[simp] theorem Act.sent_self (c : κ) (m : μ c) : (Act.send c m : Act κ μ ν).sent c = some m := by
  simp [Act.sent]

@[simp] theorem Act.received_self (c : κ) (m : ν c) :
    (Act.recv c m : Act κ μ ν).received c = some m := by
  simp [Act.received]

theorem Act.sent_of_ne {c d : κ} (h : d ≠ c) (m : μ d) :
    (Act.send d m : Act κ μ ν).sent c = none := by
  simp [Act.sent, h]

theorem Act.received_of_ne {c d : κ} (h : d ≠ c) (m : ν d) :
    (Act.recv d m : Act κ μ ν).received c = none := by
  simp [Act.received, h]

theorem sent_sends (c : κ) (ms : List (μ c)) :
    (ms.map (Act.send c : μ c → Act κ μ ν)).filterMap (Act.sent c) = ms := by
  simp [List.filterMap_map]

theorem received_recvs (c : κ) (ms : List (ν c)) :
    (ms.map (Act.recv c : ν c → Act κ μ ν)).filterMap (Act.received c) = ms := by
  simp [List.filterMap_map]

theorem sent_sends_of_ne {c d : κ} (h : d ≠ c) (ms : List (μ d)) :
    (ms.map (Act.send d : μ d → Act κ μ ν)).filterMap (Act.sent c) = [] := by
  simp [List.filterMap_map, Act.sent_of_ne h]

theorem received_recvs_of_ne {c d : κ} (h : d ≠ c) (ms : List (ν d)) :
    (ms.map (Act.recv d : ν d → Act κ μ ν)).filterMap (Act.received c) = [] := by
  simp [List.filterMap_map, Act.received_of_ne h]

theorem sent_recvs (c d : κ) (ms : List (ν d)) :
    (ms.map (Act.recv d : ν d → Act κ μ ν)).filterMap (Act.sent c) = [] := by
  simp [List.filterMap_map, Function.comp_def, Act.sent]

theorem received_sends (c d : κ) (ms : List (μ d)) :
    (ms.map (Act.send d : μ d → Act κ μ ν)).filterMap (Act.received c) = [] := by
  simp [List.filterMap_map, Function.comp_def, Act.received]

/-- The messages of a history on one channel, with the tags of their writes. -/
def sentBy (c : κ) (history : List (τ × Act κ μ ν)) : List (τ × μ c) :=
  history.filterMap fun e => (e.2.sent c).map (e.1, ·)

def receivedBy (c : κ) (history : List (τ × Act κ μ ν)) : List (τ × ν c) :=
  history.filterMap fun e => (e.2.received c).map (e.1, ·)

def sentOn (c : κ) (history : List (τ × Act κ μ ν)) : List (μ c) :=
  (sentBy c history).map Prod.snd

def receivedOn (c : κ) (history : List (τ × Act κ μ ν)) : List (ν c) :=
  (receivedBy c history).map Prod.snd

@[simp] theorem sentBy_append (c : κ) (h h' : List (τ × Act κ μ ν)) :
    sentBy c (h ++ h') = sentBy c h ++ sentBy c h' := List.filterMap_append

@[simp] theorem receivedBy_append (c : κ) (h h' : List (τ × Act κ μ ν)) :
    receivedBy c (h ++ h') = receivedBy c h ++ receivedBy c h' := List.filterMap_append

@[simp] theorem sentOn_append (c : κ) (h h' : List (τ × Act κ μ ν)) :
    sentOn c (h ++ h') = sentOn c h ++ sentOn c h' := by
  simp [sentOn]

@[simp] theorem receivedOn_append (c : κ) (h h' : List (τ × Act κ μ ν)) :
    receivedOn c (h ++ h') = receivedOn c h ++ receivedOn c h' := by
  simp [receivedOn]

theorem sentOn_cons (c : κ) (t : τ) (a : Act κ μ ν) (h : List (τ × Act κ μ ν)) :
    sentOn c ((t, a) :: h) = (a.sent c).toList ++ sentOn c h := by
  cases hsent : a.sent c <;> simp [sentOn, sentBy, hsent]

theorem receivedOn_cons (c : κ) (t : τ) (a : Act κ μ ν) (h : List (τ × Act κ μ ν)) :
    receivedOn c ((t, a) :: h) = (a.received c).toList ++ receivedOn c h := by
  cases hreceived : a.received c <;> simp [receivedOn, receivedBy, hreceived]

/-- What a channel holds after a write. -/
theorem update_sent (queue : ∀ c, List (μ c)) (c d : κ) (m : μ d) :
    Function.update queue d (queue d ++ [m]) c =
      queue c ++ ((Act.send d m : Act κ μ ν).sent c).toList := by
  by_cases hc : d = c
  · subst hc
    simp
  · simp [Act.sent_of_ne hc, Function.update_of_ne (Ne.symm hc)]

/-- What a channel held before a read. -/
theorem received_update {queue : ∀ c, List (ν c)} {d : κ} {m : ν d} {ms : List (ν d)}
    (head : queue d = m :: ms) (c : κ) :
    queue c = ((Act.recv d m : Act κ μ ν).received c).toList ++ Function.update queue d ms c := by
  by_cases hc : d = c
  · subst hc
    simp [head]
  · simp [Act.received_of_ne hc, Function.update_of_ne (Ne.symm hc)]

theorem mem_receivedBy {c : κ} {history : List (τ × Act κ μ ν)} {t : τ} {m : ν c}
    (h : (t, m) ∈ receivedBy c history) : ∃ act, (t, act) ∈ history := by
  obtain ⟨⟨t', act⟩, hmem, heq⟩ := List.mem_filterMap.mp h
  obtain ⟨m', -, hpair⟩ := Option.map_eq_some_iff.mp heq
  obtain ⟨rfl, -⟩ := Prod.mk.inj hpair
  exact ⟨act, hmem⟩

/-- The actions of one tag. -/
theorem sentBy_tagged (c : κ) (t : τ) (acts : List (Act κ μ ν)) :
    sentBy c (acts.map (t, ·)) = (acts.filterMap (Act.sent c)).map (t, ·) := by
  rw [sentBy, List.filterMap_map, List.map_filterMap]
  rfl

theorem receivedBy_tagged (c : κ) (t : τ) (acts : List (Act κ μ ν)) :
    receivedBy c (acts.map (t, ·)) = (acts.filterMap (Act.received c)).map (t, ·) := by
  rw [receivedBy, List.filterMap_map, List.map_filterMap]
  rfl

end Histories

section Process

variable {κ : Type*} {μ ν : κ → Type*} {σ τ : Type*}

/-- One step of a process, with the channels it writes and those it reads. -/
def Process.move [DecidableEq κ] (P : Process κ μ ν σ τ) (s : σ) (out : ∀ c, List (μ c))
    (inp : ∀ c, List (ν c)) :
    Option ((τ × Act κ μ ν) × σ × (∀ c, List (μ c)) × (∀ c, List (ν c))) :=
  match P.next s with
  | .halt => none
  | .inner s' => some ((P.tag s, .inner), s', out, inp)
  | .send c m s' => some ((P.tag s, .send c m), s', Function.update out c (out c ++ [m]), inp)
  | .recv c k =>
    match inp c with
    | [] => none
    | m :: rest => some ((P.tag s, .recv c m), k m, out, Function.update inp c rest)

/-- Given the messages of the script, the process does its actions and goes from
the first state to the last one, through states that satisfy `I`. -/
inductive Process.Follows (P : Process κ μ ν σ τ) (I : σ → Prop) :
    List (τ × Act κ μ ν) → σ → σ → Prop
  | nil {s : σ} (good : I s) : Follows P I [] s s
  | inner {s s' s'' : σ} {t : τ} {l : List (τ × Act κ μ ν)} (good : I s) (tag : P.tag s = t)
      (next : P.next s = .inner s') (rest : Follows P I l s' s'') :
      Follows P I ((t, .inner) :: l) s s''
  | send {s s' s'' : σ} {t : τ} {c : κ} {m : μ c} {l : List (τ × Act κ μ ν)} (good : I s)
      (tag : P.tag s = t) (next : P.next s = .send c m s') (rest : Follows P I l s' s'') :
      Follows P I ((t, .send c m) :: l) s s''
  | recv {s s' s'' : σ} {t : τ} {c : κ} {k : ν c → σ} {m : ν c} {l : List (τ × Act κ μ ν)}
      (good : I s) (tag : P.tag s = t) (next : P.next s = .recv c k) (read : k m = s')
      (rest : Follows P I l s' s'') : Follows P I ((t, .recv c m) :: l) s s''

variable {P : Process κ μ ν σ τ} {I : σ → Prop} {s s' s'' : σ} {l l' : List (τ × Act κ μ ν)}

theorem Process.Follows.good (h : P.Follows I l s s') : I s := by
  cases h <;> assumption

theorem Process.Follows.good_end (h : P.Follows I l s s') : I s' := by
  induction h <;> assumption

theorem Process.Follows.imp {J : σ → Prop} (h : P.Follows I l s s') (himp : ∀ s, I s → J s) :
    P.Follows J l s s' := by
  induction h with
  | nil good => exact .nil (himp _ good)
  | inner good tag next rest ih => exact .inner (himp _ good) tag next ih
  | send good tag next rest ih => exact .send (himp _ good) tag next ih
  | recv good tag next read rest ih => exact .recv (himp _ good) tag next read ih

theorem Process.Follows.append (h : P.Follows I l s s') (h' : P.Follows I l' s' s'') :
    P.Follows I (l ++ l') s s'' := by
  induction h with
  | nil good => exact h'
  | inner good tag next rest ih => exact .inner good tag next (ih h')
  | send good tag next rest ih => exact .send good tag next (ih h')
  | recv good tag next read rest ih => exact .recv good tag next read (ih h')

/-- A process that finds on its channels what its script goes on with takes the
next action of the script. -/
theorem Process.Follows.move [DecidableEq κ] (h : P.Follows I l s s'') (hquiet : (P.next s'').Quiet)
    {out out' : ∀ c, List (μ c)} {inp inp' : ∀ c, List (ν c)} {e : τ × Act κ μ ν}
    (hinp : ∀ c, inp c <+: receivedOn c l) (hmove : P.move s out inp = some (e, s', out', inp')) :
    ∃ l', l = e :: l' ∧ P.Follows I l' s' s'' ∧ (∀ c, out' c = out c ++ sentOn c [e]) ∧
      ∀ c, inp c = receivedOn c [e] ++ inp' c := by
  unfold Process.move at hmove
  cases h with
  | nil good =>
    split at hmove
    · cases hmove
    · rename_i hnext
      rw [hnext] at hquiet
      exact hquiet.elim
    · rename_i hnext
      rw [hnext] at hquiet
      exact hquiet.elim
    · rename_i c k hnext
      rw [List.prefix_nil.mp (hinp c)] at hmove
      cases hmove
  | inner good tag next rest =>
    subst tag
    rw [next] at hmove
    cases hmove
    exact ⟨_, rfl, rest, fun c => by simp [sentOn, sentBy, Act.sent],
      fun c => by simp [receivedOn, receivedBy, Act.received]⟩
  | @send _ _ _ _ d m _ good tag next rest =>
    subst tag
    rw [next] at hmove
    cases hmove
    refine ⟨_, rfl, rest, fun c => ?_, fun c => by simp [receivedOn, receivedBy, Act.received]⟩
    by_cases hc : d = c
    · subst hc
      simp [sentOn, sentBy]
    · simp [sentOn, sentBy, Act.sent_of_ne hc, Function.update_of_ne (Ne.symm hc)]
  | @recv _ _ _ _ d k m _ good tag next read rest =>
    subst tag
    rw [next] at hmove
    have hhead := hinp d
    cases hpipe : inp d with
    | nil => simp [hpipe] at hmove
    | cons m' ms =>
      simp only [hpipe, Option.some.injEq] at hmove
      cases hmove
      -- the message in front is the one of the script
      have hm : m' = m := by
        rw [hpipe] at hhead
        simp only [receivedOn, receivedBy, List.filterMap_cons, Act.received_self, Option.map_some,
          List.map_cons] at hhead
        exact (List.cons_prefix_cons.mp hhead).1
      subst hm read
      refine ⟨_, rfl, rest, fun c => by simp [sentOn, sentBy, Act.sent], fun c => ?_⟩
      by_cases hc : d = c
      · subst hc
        simp [receivedOn, receivedBy, hpipe]
      · simp [receivedOn, receivedBy, Act.received_of_ne hc, Function.update_of_ne (Ne.symm hc)]

end Process

/-! ### The pair -/

inductive Side where
  | left
  | right
  deriving DecidableEq, Repr

/-- Two processes, and what is under way between them. -/
structure Pair (κ : Type*) (μ ν : κ → Type*) (σ₁ σ₂ : Type*) where
  left : σ₁
  right : σ₂
  toRight : ∀ c, List (μ c)
  toLeft : ∀ c, List (ν c)

section Sides

variable {κ : Type*} {μ ν : κ → Type*} {τ₁ τ₂ : Type*}

/-- The history of each side. -/
def lefts (evs : List ((τ₁ × Act κ μ ν) ⊕ (τ₂ × Act κ ν μ))) : List (τ₁ × Act κ μ ν) :=
  evs.filterMap Sum.getLeft?

def rights (evs : List ((τ₁ × Act κ μ ν) ⊕ (τ₂ × Act κ ν μ))) : List (τ₂ × Act κ ν μ) :=
  evs.filterMap Sum.getRight?

theorem lefts_append (evs evs' : List ((τ₁ × Act κ μ ν) ⊕ (τ₂ × Act κ ν μ))) :
    lefts (evs ++ evs') = lefts evs ++ lefts evs' := List.filterMap_append

theorem rights_append (evs evs' : List ((τ₁ × Act κ μ ν) ⊕ (τ₂ × Act κ ν μ))) :
    rights (evs ++ evs') = rights evs ++ rights evs' := List.filterMap_append

end Sides

section Pair

variable {κ : Type*} [DecidableEq κ] {μ ν : κ → Type*} {σ₁ σ₂ τ₁ τ₂ : Type*}

def Pair.start (s : σ₁) (t : σ₂) : Pair κ μ ν σ₁ σ₂ := ⟨s, t, fun _ => [], fun _ => []⟩

variable (P : Process κ μ ν σ₁ τ₁) (Q : Process κ ν μ σ₂ τ₂)

/-- One step of one side. -/
def Pair.move (p : Pair κ μ ν σ₁ σ₂) :
    Side → Option (((τ₁ × Act κ μ ν) ⊕ (τ₂ × Act κ ν μ)) × Pair κ μ ν σ₁ σ₂)
  | .left => (P.move p.left p.toRight p.toLeft).map fun r =>
      (.inl r.1, ⟨r.2.1, p.right, r.2.2.1, r.2.2.2⟩)
  | .right => (Q.move p.right p.toLeft p.toRight).map fun r =>
      (.inr r.1, ⟨p.left, r.2.1, r.2.2.2, r.2.2.1⟩)

/-- Either side moves. -/
def Pair.Step (p : Pair κ μ ν σ₁ σ₂) (e : (τ₁ × Act κ μ ν) ⊕ (τ₂ × Act κ ν μ))
    (p' : Pair κ μ ν σ₁ σ₂) : Prop :=
  ∃ side, p.move P Q side = some (e, p')

/-- The interleaving that a list of turns prescribes. -/
def Pair.play : List Side → Pair κ μ ν σ₁ σ₂ →
    Option (List ((τ₁ × Act κ μ ν) ⊕ (τ₂ × Act κ ν μ)) × Pair κ μ ν σ₁ σ₂)
  | [], p => some ([], p)
  | side :: sides, p =>
    match p.move P Q side with
    | none => none
    | some (e, p') => (Pair.play sides p').map fun r => (e :: r.1, r.2)

variable {P Q}

theorem Pair.steps_of_play {sides : List Side} {p p' : Pair κ μ ν σ₁ σ₂}
    {evs : List ((τ₁ × Act κ μ ν) ⊕ (τ₂ × Act κ ν μ))}
    (h : Pair.play P Q sides p = some (evs, p')) :
    Steps (Pair.Step P Q) p evs p' := by
  induction sides generalizing p evs with
  | nil =>
    cases h
    exact .nil _
  | cons side sides ih =>
    simp only [Pair.play] at h
    split at h
    · cases h
    · rename_i e p₁ hmove
      obtain ⟨⟨evs', p₂⟩, hplay, heq⟩ := Option.map_eq_some_iff.mp h
      cases heq
      exact .cons ⟨side, hmove⟩ (ih hplay)

/-- Each side receives on every channel what the other one sends there. -/
structure Dual (L : List (τ₁ × Act κ μ ν)) (R : List (τ₂ × Act κ ν μ)) : Prop where
  toRight : ∀ c, sentOn c L = receivedOn c R
  toLeft : ∀ c, sentOn c R = receivedOn c L

variable (P Q) in
/-- Both sides have done the first actions of their scripts and are about to do
the others. -/
structure Pair.OnScripts (I : σ₁ → Prop) (J : σ₂ → Prop) (L : List (τ₁ × Act κ μ ν))
    (R : List (τ₂ × Act κ ν μ)) (sEnd : σ₁) (tEnd : σ₂) (doneL : List (τ₁ × Act κ μ ν))
    (doneR : List (τ₂ × Act κ ν μ)) (p : Pair κ μ ν σ₁ σ₂) : Prop where
  left : ∃ rest, L = doneL ++ rest ∧ P.Follows I rest p.left sEnd
  right : ∃ rest, R = doneR ++ rest ∧ Q.Follows J rest p.right tEnd
  toRight : ∀ c, sentOn c doneL = receivedOn c doneR ++ p.toRight c
  toLeft : ∀ c, sentOn c doneR = receivedOn c doneL ++ p.toLeft c

section Scripts

variable {I : σ₁ → Prop} {J : σ₂ → Prop} {L doneL : List (τ₁ × Act κ μ ν)}
  {R doneR : List (τ₂ × Act κ ν μ)} {s sEnd : σ₁} {t tEnd : σ₂} {p p' : Pair κ μ ν σ₁ σ₂}

/-- What is under way is what the receiver's script goes on with. -/
theorem pending_prefix {α : Type*} {sent received pending later rest : List α}
    (h : sent = received ++ pending) (hdual : sent ++ later = received ++ rest) :
    pending <+: rest := by
  rw [h, List.append_assoc, List.append_cancel_left_eq] at hdual
  exact ⟨later, hdual⟩

theorem Pair.OnScripts.moveLeft (h : p.OnScripts P Q I J L R sEnd tEnd doneL doneR)
    (hdual : Dual L R) (hquiet : (P.next sEnd).Quiet) {e : τ₁ × Act κ μ ν}
    (hmove : p.move P Q .left = some (.inl e, p')) :
    p'.OnScripts P Q I J L R sEnd tEnd (doneL ++ [e]) doneR := by
  obtain ⟨⟨rest, hL, hfollows⟩, ⟨rest', hR, hfollows'⟩, htoRight, htoLeft⟩ := h
  obtain ⟨⟨e', s', out', inp'⟩, hmove', heq⟩ := Option.map_eq_some_iff.mp hmove
  cases heq
  have hinp : ∀ c, p.toLeft c <+: receivedOn c rest := by
    intro c
    have hc := hdual.toLeft c
    rw [hL, hR, sentOn_append, receivedOn_append] at hc
    exact pending_prefix (htoLeft c) hc
  obtain ⟨l', rfl, hfollows₁, hout, hin⟩ := hfollows.move hquiet hinp hmove'
  refine ⟨⟨l', by simp [hL], hfollows₁⟩, ⟨rest', hR, hfollows'⟩, fun c => ?_, fun c => ?_⟩
  · change _ = _ ++ out' c
    rw [sentOn_append, htoRight c, hout c, List.append_assoc]
  · rw [htoLeft c, receivedOn_append, hin c, List.append_assoc]

theorem Pair.OnScripts.moveRight (h : p.OnScripts P Q I J L R sEnd tEnd doneL doneR)
    (hdual : Dual L R) (hquiet : (Q.next tEnd).Quiet) {e : τ₂ × Act κ ν μ}
    (hmove : p.move P Q .right = some (.inr e, p')) :
    p'.OnScripts P Q I J L R sEnd tEnd doneL (doneR ++ [e]) := by
  obtain ⟨⟨rest, hL, hfollows⟩, ⟨rest', hR, hfollows'⟩, htoRight, htoLeft⟩ := h
  obtain ⟨⟨e', t', out', inp'⟩, hmove', heq⟩ := Option.map_eq_some_iff.mp hmove
  cases heq
  have hinp : ∀ c, p.toRight c <+: receivedOn c rest' := by
    intro c
    have hc := hdual.toRight c
    rw [hL, hR, sentOn_append, receivedOn_append] at hc
    exact pending_prefix (htoRight c) hc
  obtain ⟨l', rfl, hfollows₁, hout, hin⟩ := hfollows'.move hquiet hinp hmove'
  refine ⟨⟨rest, hL, hfollows⟩, ⟨l', by simp [hR], hfollows₁⟩, fun c => ?_, fun c => ?_⟩
  · rw [htoRight c, receivedOn_append, hin c, List.append_assoc]
  · change _ = _ ++ out' c
    rw [sentOn_append, htoLeft c, hout c, List.append_assoc]

/-- Along every interleaving both sides stay on their scripts. -/
theorem Pair.onScripts (hleft : P.Follows I L s sEnd) (hright : Q.Follows J R t tEnd)
    (hdual : Dual L R) (hquietL : (P.next sEnd).Quiet) (hquietR : (Q.next tEnd).Quiet)
    {evs : List ((τ₁ × Act κ μ ν) ⊕ (τ₂ × Act κ ν μ))}
    (h : Steps (Pair.Step P Q) (Pair.start s t) evs p) :
    p.OnScripts P Q I J L R sEnd tEnd (lefts evs) (rights evs) := by
  refine h.invariant (I := fun evs p =>
    p.OnScripts P Q I J L R sEnd tEnd (lefts evs) (rights evs)) ?_ ?_
  · rintro evs p e p' hon ⟨side, hmove⟩
    cases side with
    | left =>
      cases e with
      | inl e =>
        have hmoved := hon.moveLeft hdual hquietL hmove
        rw [lefts_append, rights_append, show rights [Sum.inl e] = [] from rfl, List.append_nil]
        exact hmoved
      | inr e =>
        obtain ⟨r, -, heq⟩ := Option.map_eq_some_iff.mp hmove
        cases heq
    | right =>
      cases e with
      | inl e =>
        obtain ⟨r, -, heq⟩ := Option.map_eq_some_iff.mp hmove
        cases heq
      | inr e =>
        have hmoved := hon.moveRight hdual hquietR hmove
        rw [lefts_append, rights_append, show lefts [Sum.inr e] = [] from rfl, List.append_nil]
        exact hmoved
  · exact ⟨⟨L, rfl, hleft⟩, ⟨R, rfl, hright⟩, fun c => rfl, fun c => rfl⟩

end Scripts

end Pair

/-! ### Scripts in parts -/

section Parts

variable {α β : Type*}

/-- One part for each item of the list, tagged with its index, the first of them
having index `i`. -/
def parts (f : Nat → β → List α) (i : Nat) (l : List β) : List (Nat × α) :=
  (l.zipIdx i).flatMap fun p => (f p.2 p.1).map (p.2, ·)

variable (f : Nat → β → List α) (i : Nat)

@[simp] theorem parts_nil : parts f i [] = [] := rfl

theorem parts_cons (b : β) (l : List β) :
    parts f i (b :: l) = (f i b).map (i, ·) ++ parts f (i + 1) l := rfl

theorem parts_congr {g : Nat → β → List α} (h : ∀ j b, f j b = g j b) (l : List β) :
    parts f i l = parts g i l := by
  rw [funext fun j => funext (h j)]

/-- Without their tags. -/
theorem parts_snd {g : β → List α} (hf : ∀ j b, f j b = g b) (l : List β) :
    (parts f i l).map Prod.snd = l.flatMap g := by
  induction l generalizing i with
  | nil => rfl
  | cons b l ih => simp [parts_cons, ih, hf, Function.comp_def]

variable {f i}

theorem mem_parts {l : List β} {j : Nat} {a : α} (h : (j, a) ∈ parts f i l) :
    i ≤ j ∧ j < i + l.length ∧ ∃ b ∈ l, a ∈ f j b := by
  induction l generalizing i with
  | nil => cases h
  | cons b l ih =>
    rw [parts_cons] at h
    rcases List.mem_append.mp h with hfirst | hrest
    · obtain ⟨a', ha', heq⟩ := List.mem_map.mp hfirst
      obtain ⟨rfl, rfl⟩ := Prod.mk.inj heq
      exact ⟨Nat.le_refl _, by simp, b, List.mem_cons_self, ha'⟩
    · obtain ⟨hle, hlt, b', hb', ha'⟩ := ih hrest
      refine ⟨by omega, ?_, b', List.mem_cons_of_mem b hb', ha'⟩
      rw [List.length_cons]
      omega

/-- The parts stand in the order of their tags. -/
theorem parts_pairwise (f : Nat → β → List α) (i : Nat) (l : List β) :
    (parts f i l).Pairwise (·.1 ≤ ·.1) := by
  induction l generalizing i with
  | nil => exact .nil
  | cons b l ih =>
    rw [parts_cons]
    refine List.pairwise_append.mpr ⟨?_, ih _, ?_⟩
    · exact List.pairwise_map.mpr (List.pairwise_of_forall fun _ _ => Nat.le_refl i)
    · rintro ⟨j, a⟩ hfirst ⟨j', a'⟩ hrest
      obtain ⟨_, -, heq⟩ := List.mem_map.mp hfirst
      obtain ⟨rfl, -⟩ := Prod.mk.inj heq
      have hle := (mem_parts hrest).1
      change i ≤ j'
      omega

/-- What carries one tag. -/
def ofTag (j : Nat) (l : List (Nat × α)) : List α := (l.filter (·.1 = j)).map Prod.snd

theorem ofTag_append (j : Nat) (l l' : List (Nat × α)) :
    ofTag j (l ++ l') = ofTag j l ++ ofTag j l' := by
  simp [ofTag]

theorem ofTag_prefix {l l' : List (Nat × α)} (h : l <+: l') (j : Nat) :
    ofTag j l <+: ofTag j l' :=
  (h.filter _).map _

theorem ofTag_eq_nil {j : Nat} {l : List (Nat × α)} (h : ∀ x ∈ l, x.1 ≠ j) : ofTag j l = [] := by
  rw [ofTag, List.filter_eq_nil_iff.mpr (by simpa using h)]
  rfl

theorem ofTag_tagged (j : Nat) (l : List α) : ofTag j (l.map (j, ·)) = l := by
  simp [ofTag, List.filter_map, Function.comp_def]

theorem ofTag_parts {l : List β} {k : Nat} {b : β} (h : l[k]? = some b) :
    ofTag (i + k) (parts f i l) = f (i + k) b := by
  induction l generalizing i k with
  | nil => cases h
  | cons c l ih =>
    rw [parts_cons, ofTag_append]
    cases k with
    | zero =>
      obtain rfl := Option.some.inj h
      have hlater : ofTag (i + 0) (parts f (i + 1) l) = [] := by
        refine ofTag_eq_nil fun x hx => ?_
        have hle := (mem_parts (j := x.1) (a := x.2) hx).1
        omega
      rw [hlater, List.append_nil]
      exact ofTag_tagged _ _
    | succ k =>
      have hfirst : ofTag (i + (k + 1)) ((f i c).map (i, ·)) = [] := by
        refine ofTag_eq_nil fun x hx => ?_
        obtain ⟨a, -, rfl⟩ := List.mem_map.mp hx
        change i ≠ i + (k + 1)
        omega
      have hrest := ih (i := i + 1) h
      rw [hfirst, List.nil_append, show i + (k + 1) = i + 1 + k by omega]
      exact hrest

end Parts

section PartHistories

variable {κ : Type*} [DecidableEq κ] {μ ν : κ → Type*} {β : Type*}

theorem sentBy_parts (c : κ) (f : Nat → β → List (Act κ μ ν)) (i : Nat) (l : List β) :
    sentBy c (parts f i l) = parts (fun j b => (f j b).filterMap (Act.sent c)) i l := by
  induction l generalizing i with
  | nil => rfl
  | cons b l ih => rw [parts_cons, parts_cons, sentBy_append, sentBy_tagged, ih]

theorem receivedBy_parts (c : κ) (f : Nat → β → List (Act κ μ ν)) (i : Nat) (l : List β) :
    receivedBy c (parts f i l) = parts (fun j b => (f j b).filterMap (Act.received c)) i l := by
  induction l generalizing i with
  | nil => rfl
  | cons b l ih => rw [parts_cons, parts_cons, receivedBy_append, receivedBy_tagged, ih]

end PartHistories

end Picon.Lib
