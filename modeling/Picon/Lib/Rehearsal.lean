import Picon.Lib.Pipes

/-!
# Playing two scripts against each other

One interleaving of two scripts, put together from parts, with so little under way
that the pipes hold it. Processes that follow the scripts can take it, and with it
every other interleaving comes to its end.
-/

namespace Picon.Lib

section Plays

variable {κ : Type*} [DecidableEq κ] {μ ν : κ → Type*} {σ₁ σ₂ τ₁ τ₂ : Type*}

variable (room : Room κ)

/-- Two scripts played against each other, from what is under way before them to
what is under way after them. -/
inductive Plays : (∀ c, List (μ c)) → (∀ c, List (ν c)) → List (τ₁ × Act κ μ ν) →
    List (τ₂ × Act κ ν μ) → (∀ c, List (μ c)) → (∀ c, List (ν c)) → Prop
  | nil (out : ∀ c, List (μ c)) (inp : ∀ c, List (ν c)) : Plays out inp [] [] out inp
  | innerLeft {out out' inp inp' L R} {t : τ₁} (rest : Plays out inp L R out' inp') :
      Plays out inp ((t, .inner) :: L) R out' inp'
  | sendLeft {out out' inp inp' L R} {t : τ₁} {c : κ} {m : μ c}
      (fits : (out c).length < room.toRight c)
      (rest : Plays (Function.update out c (out c ++ [m])) inp L R out' inp') :
      Plays out inp ((t, .send c m) :: L) R out' inp'
  | recvLeft {out out' inp inp' L R} {t : τ₁} {c : κ} {m : ν c} {ms : List (ν c)}
      (head : inp c = m :: ms) (rest : Plays out (Function.update inp c ms) L R out' inp') :
      Plays out inp ((t, .recv c m) :: L) R out' inp'
  | innerRight {out out' inp inp' L R} {t : τ₂} (rest : Plays out inp L R out' inp') :
      Plays out inp L ((t, .inner) :: R) out' inp'
  | sendRight {out out' inp inp' L R} {t : τ₂} {c : κ} {m : ν c}
      (fits : (inp c).length < room.toLeft c)
      (rest : Plays out (Function.update inp c (inp c ++ [m])) L R out' inp') :
      Plays out inp L ((t, .send c m) :: R) out' inp'
  | recvRight {out out' inp inp' L R} {t : τ₂} {c : κ} {m : μ c} {ms : List (μ c)}
      (head : out c = m :: ms) (rest : Plays (Function.update out c ms) inp L R out' inp') :
      Plays out inp L ((t, .recv c m) :: R) out' inp'

variable {room} {out out' out'' : ∀ c, List (μ c)} {inp inp' inp'' : ∀ c, List (ν c)}
  {L L' : List (τ₁ × Act κ μ ν)} {R R' : List (τ₂ × Act κ ν μ)}

theorem Plays.append (h : Plays room out inp L R out' inp')
    (h' : Plays room out' inp' L' R' out'' inp'') :
    Plays room out inp (L ++ L') (R ++ R') out'' inp'' := by
  induction h with
  | nil out inp => exact h'
  | innerLeft _ ih => exact .innerLeft (ih h')
  | sendLeft fits _ ih => exact .sendLeft fits (ih h')
  | recvLeft head _ ih => exact .recvLeft head (ih h')
  | innerRight _ ih => exact .innerRight (ih h')
  | sendRight fits _ ih => exact .sendRight fits (ih h')
  | recvRight head _ ih => exact .recvRight head (ih h')

theorem update_back {queue : ∀ c, List (μ c)} (c : κ) (l : List (μ c)) :
    Function.update (Function.update queue c l) c (queue c) = queue := by
  rw [Function.update_idem, Function.update_eq_self]

/-- A message from left to right over a channel that is empty. -/
theorem Plays.toRight {t : τ₁} {t' : τ₂} {c : κ} {m : μ c} (hqueue : out c = [])
    (rest : Plays room out inp L R out' inp') :
    Plays room out inp ((t, .send c m) :: L) ((t', .recv c m) :: R) out' inp' := by
  have hhead : Function.update out c (out c ++ [m]) c = m :: out c := by
    rw [Function.update_self, hqueue]
    rfl
  refine .sendLeft ?_ (.recvRight hhead ?_)
  · rw [hqueue]
    exact room.toRight_pos c
  · rw [update_back]
    exact rest

/-- A message from right to left over a channel that is empty. -/
theorem Plays.toLeft {t : τ₁} {t' : τ₂} {c : κ} {m : ν c} (hqueue : inp c = [])
    (rest : Plays room out inp L R out' inp') :
    Plays room out inp ((t, .recv c m) :: L) ((t', .send c m) :: R) out' inp' := by
  have hhead : Function.update inp c (inp c ++ [m]) c = m :: inp c := by
    rw [Function.update_self, hqueue]
    rfl
  refine .sendRight ?_ (.recvLeft hhead ?_)
  · rw [hqueue]
    exact room.toLeft_pos c
  · rw [update_back]
    exact rest

/-- Messages from left to right over a channel that is empty. -/
theorem plays_packets {t : τ₁} {t' : τ₂} {c : κ} (hqueue : out c = []) (ms : List (μ c)) :
    Plays room out inp ((ms.map (Act.send c)).map (t, ·)) ((ms.map (Act.recv c)).map (t', ·))
      out inp := by
  induction ms with
  | nil => exact .nil out inp
  | cons m ms ih => exact .toRight hqueue ih

/-- Messages that stay under way. -/
theorem plays_sends (out : ∀ c, List (μ c)) (inp : ∀ c, List (ν c)) (t : τ₁) (c : κ)
    (ms : List (μ c)) (hfits : (out c ++ ms).length ≤ room.toRight c) :
    Plays room out inp ((ms.map (Act.send c)).map (t, ·)) ([] : List (τ₂ × Act κ ν μ))
      (Function.update out c (out c ++ ms)) inp := by
  induction ms generalizing out with
  | nil =>
    rw [List.append_nil, Function.update_eq_self]
    exact .nil out inp
  | cons m ms ih =>
    have hrest := ih (Function.update out c (out c ++ [m])) (by simpa using hfits)
    rw [Function.update_self, Function.update_idem, List.append_assoc] at hrest
    refine .sendLeft ?_ hrest
    rw [List.length_append, List.length_cons] at hfits
    omega

/-- What is sent is received, or under way at the end. -/
theorem Plays.balance (h : Plays room out inp L R out' inp') (c : κ) :
    out c ++ sentOn c L = receivedOn c R ++ out' c ∧
      inp c ++ sentOn c R = receivedOn c L ++ inp' c := by
  induction h with
  | nil out inp => exact ⟨List.append_nil _, List.append_nil _⟩
  | innerLeft _ ih => exact ih
  | innerRight _ ih => exact ih
  | @sendLeft out _ inp _ L R t d m fits _ ih =>
    rw [sentOn_cons, receivedOn_cons, ← List.append_assoc, ← update_sent]
    exact ih
  | @sendRight out _ inp _ L R t d m fits _ ih =>
    rw [sentOn_cons, receivedOn_cons, ← List.append_assoc, ← update_sent]
    exact ih
  | @recvLeft out _ inp _ L R t d m ms head _ ih =>
    rw [sentOn_cons, receivedOn_cons, received_update head c, List.append_assoc, ih.2,
      List.append_assoc]
    exact ⟨ih.1, rfl⟩
  | @recvRight out _ inp _ L R t d m ms head _ ih =>
    rw [sentOn_cons, receivedOn_cons, received_update head c, List.append_assoc, ih.1,
      List.append_assoc]
    exact ⟨rfl, ih.2⟩

variable {P : Process κ μ ν σ₁ τ₁} {Q : Process κ ν μ σ₂ τ₂} {I : σ₁ → Prop} {J : σ₂ → Prop}
  {s s' : σ₁} {t t' : σ₂}

/-- Processes that follow the scripts can do what was played. -/
theorem Plays.steps (h : Plays room out inp L R out' inp') (hleft : P.Follows I L s s')
    (hright : Q.Follows J R t t') : ∃ evs,
      Steps (Moved (Pair.moveWithin P Q room)) ⟨s, t, out, inp⟩ evs ⟨s', t', out', inp'⟩ ∧
      lefts evs = L ∧ rights evs = R := by
  induction h generalizing s t with
  | nil out inp =>
    cases hleft
    cases hright
    exact ⟨[], .nil _, rfl, rfl⟩
  | innerLeft _ ih =>
    cases hleft with
    | inner _ tag next rest =>
      obtain ⟨evs, hsteps, hl, hr⟩ := ih rest hright
      refine ⟨.inl (_, .inner) :: evs, .cons ⟨.left, ?_⟩ hsteps, congrArg (List.cons _) hl, hr⟩
      simp [Pair.moveWithin, Next.fits, Pair.move, Process.move, next, tag]
  | sendLeft fits _ ih =>
    cases hleft with
    | send _ tag next rest =>
      obtain ⟨evs, hsteps, hl, hr⟩ := ih rest hright
      refine ⟨.inl (_, .send _ _) :: evs, .cons ⟨.left, ?_⟩ hsteps, congrArg (List.cons _) hl, hr⟩
      simp [Pair.moveWithin, Next.fits, Pair.move, Process.move, next, tag, fits]
  | recvLeft head _ ih =>
    cases hleft with
    | recv _ tag next read rest =>
      obtain ⟨evs, hsteps, hl, hr⟩ := ih rest hright
      refine ⟨.inl (_, .recv _ _) :: evs, .cons ⟨.left, ?_⟩ hsteps, congrArg (List.cons _) hl, hr⟩
      simp [Pair.moveWithin, Next.fits, Pair.move, Process.move, next, tag, head, read]
  | innerRight _ ih =>
    cases hright with
    | inner _ tag next rest =>
      obtain ⟨evs, hsteps, hl, hr⟩ := ih hleft rest
      refine ⟨.inr (_, .inner) :: evs, .cons ⟨.right, ?_⟩ hsteps, hl, congrArg (List.cons _) hr⟩
      simp [Pair.moveWithin, Next.fits, Pair.move, Process.move, next, tag]
  | sendRight fits _ ih =>
    cases hright with
    | send _ tag next rest =>
      obtain ⟨evs, hsteps, hl, hr⟩ := ih hleft rest
      refine ⟨.inr (_, .send _ _) :: evs, .cons ⟨.right, ?_⟩ hsteps, hl, congrArg (List.cons _) hr⟩
      simp [Pair.moveWithin, Next.fits, Pair.move, Process.move, next, tag, fits]
  | recvRight head _ ih =>
    cases hright with
    | recv _ tag next read rest =>
      obtain ⟨evs, hsteps, hl, hr⟩ := ih hleft rest
      refine ⟨.inr (_, .recv _ _) :: evs, .cons ⟨.right, ?_⟩ hsteps, hl, congrArg (List.cons _) hr⟩
      simp [Pair.moveWithin, Next.fits, Pair.move, Process.move, next, tag, head, read]

/-- The same with other tags. -/
theorem Plays.retag {τ₁' τ₂' : Type*} (f : τ₁ → τ₁') (g : τ₂ → τ₂')
    (h : Plays room out inp L R out' inp') :
    Plays room out inp (L.map (Prod.map f id)) (R.map (Prod.map g id)) out' inp' := by
  induction h with
  | nil out inp => exact .nil out inp
  | innerLeft _ ih => exact .innerLeft ih
  | sendLeft fits _ ih => exact .sendLeft fits ih
  | recvLeft head _ ih => exact .recvLeft head ih
  | innerRight _ ih => exact .innerRight ih
  | sendRight fits _ ih => exact .sendRight fits ih
  | recvRight head _ ih => exact .recvRight head ih

/-! ### Every interleaving over pipes that break -/

/-- Two scripts that can be played against each other with nothing under way at
either end are done in every interleaving, over pipes that hold so many messages
and break: nothing fails, neither side waits forever, and both do their scripts to
the end. -/
theorem Pair.completes {failLeft : σ₁ → σ₁} {failRight : σ₂ → σ₂}
    (hplays : Plays room (fun _ => []) (fun _ => []) L R (fun _ => []) (fun _ => []))
    (hleft : P.Follows I L s s') (hright : Q.Follows J R t t') (hhaltL : (P.next s').halts)
    (hhaltR : (Q.next t').halts) {evs : List ((τ₁ × Act κ μ ν) ⊕ (τ₂ × Act κ ν μ))}
    {p : Pair κ μ ν σ₁ σ₂}
    (h : Steps (Moved (Pair.moveOver P Q room failLeft failRight)) (Pair.start s t) evs p) :
    (∀ side, ¬ p.broken P Q side) ∧
      ∃ more, Steps (Moved (Pair.moveOver P Q room failLeft failRight)) p more
          (Pair.start s' t') ∧
        lefts (evs ++ more) = L ∧ rights (evs ++ more) = R := by
  have hdual : Dual L R := by
    refine ⟨fun c => ?_, fun c => ?_⟩
    · simpa using (hplays.balance c).1
    · simpa using (hplays.balance c).2
  have hunbroken {evs : List ((τ₁ × Act κ μ ν) ⊕ (τ₂ × Act κ ν μ))} {p : Pair κ μ ν σ₁ σ₂}
      (hwithin : Steps (Moved (Pair.moveWithin P Q room)) (Pair.start s t) evs p) (side : Side) :
      ¬ p.broken P Q side :=
    (Pair.onScripts hleft hright hdual (Next.quiet_of_halts hhaltL) (Next.quiet_of_halts hhaltR)
      (Pair.steps_of_within hwithin)).not_broken hdual hhaltL hhaltR side
  -- so far nothing has failed
  have hwithin : Steps (Moved (Pair.moveWithin P Q room)) (Pair.start s t) evs p :=
    h.of_reached fun _ _ _ _ hreached hstep => hstep.imp fun side hmove =>
      (Pair.moveOver_of_not_broken (hunbroken hreached side)).symm.trans hmove
  obtain ⟨whole, hwhole, hlefts, hrights⟩ := hplays.steps hleft hright
  have hrest : AtRest (Pair.moveWithin P Q room) (Pair.start s' t') :=
    Pair.atRest_within hhaltL hhaltR
  obtain ⟨more, hmore, -, hl, hr⟩ :=
    Pair.commuting_within.ends_alike Pair.shows_within hwhole hrest hwithin
  refine ⟨hunbroken hwithin, more, ?_, hl.trans hlefts, hr.trans hrights⟩
  exact hwithin.imp_of_reached hmore fun _ _ _ _ hreached hstep => hstep.imp fun side hmove =>
    (Pair.moveOver_of_not_broken (hunbroken hreached side)).trans hmove

end Plays

/-! ### A process as the first part of another -/

section Embedding

variable {κ : Type*} {μ ν : κ → Type*} {σ σ' τ τ' : Type*}

def Next.map (f : σ → σ') : Next κ μ ν σ → Next κ μ ν σ'
  | .halt => .halt
  | .inner s => .inner (f s)
  | .send c m s => .send c m (f s)
  | .recv c k => .recv c (f ∘ k)

variable {P : Process κ μ ν σ τ} {I : σ → Prop}
  {l : List (τ × Act κ μ ν)} {s s' : σ}

/-- What is done by a process that another one runs until it halts. -/
theorem Process.Follows.embed (P' : Process κ μ ν σ' τ') (f : σ → σ') (g : τ → τ')
    (hembed : ∀ s, P.next s ≠ .halt → P'.next (f s) = (P.next s).map f ∧ P'.tag (f s) = g (P.tag s))
    (h : P.Follows I l s s') :
    P'.Follows (fun _ => True) (l.map (Prod.map g id)) (f s) (f s') := by
  induction h with
  | nil _ => exact .nil trivial
  | @inner s _ _ _ _ _ tag next _ ih =>
    obtain ⟨hnext, htag⟩ := hembed s (by simp [next])
    rw [next] at hnext
    exact .inner trivial (by rw [htag, tag]) hnext ih
  | @send s _ _ _ _ _ _ _ tag next _ ih =>
    obtain ⟨hnext, htag⟩ := hembed s (by simp [next])
    rw [next] at hnext
    exact .send trivial (by rw [htag, tag]) hnext ih
  | @recv s _ _ _ _ _ _ _ _ tag next read _ ih =>
    obtain ⟨hnext, htag⟩ := hembed s (by simp [next])
    rw [next] at hnext
    exact .recv trivial (by rw [htag, tag]) hnext (congrArg f read) ih

end Embedding

end Picon.Lib
