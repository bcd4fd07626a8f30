import Formulary.Proofs.Source.Advance

/-!
# One character of lookahead

A parser looks at no more than the character behind those that it has read. Two sources that begin
alike are therefore read alike up to where they part, and one character further.

A `Fork` is the place where a source goes on in two ways: with some character, and with the same
character or not at all. `Tracks` compares the results of reading both ways from a place in front of
the fork. As long as the first run stays there, the other one does the same; if it goes past the fork,
nothing is said. It may also stop right at the fork while the other source has come to its end: **what
stops a parser in the middle of a source does not disturb it at the end**, where the other run has no
fault to find (`Tolerates`).

The levels of the grammar are read by parsers with a budget, and the two sources differ in length.
`Follows` therefore compares two parsers, in front of sources that their budgets cover.

Main results: the rules that put such parsers together, `Follows.bind`, `Follows.peek` and
`Follows.shift`, and `Parts` for the readers of lexemes.
-/

namespace Formulary

/-- A cause about a character that does not fit where it stands. -/
def SyntaxError.Misplaced : SyntaxError → Prop
  | unexpected .. | unclosedBracket _ | unclosedCall .. => True
  | _ => False

namespace Parser

/-! ## Two ways to go on -/

/-- Two ways in which a source may go on. -/
structure Fork where
  /-- The next character of the first way. -/
  next : Char
  /-- What stands behind it. -/
  far : List Char
  /-- The other way. -/
  other : List Char
  agrees : ∀ c ∈ other.head?, c = next

namespace Fork

variable (F : Fork)

/-- The first way. -/
def first : List Char := F.next :: F.far

theorem head?_append {x : List Char} (h : x ++ F.other ≠ []) :
    (x ++ F.other).head? = (x ++ F.first).head? := by
  cases x with
  | cons c x => rfl
  | nil =>
    obtain ⟨next, far, other, agrees⟩ := F
    cases other with
    | nil => exact absurd rfl h
    | cons c other => exact congrArg some (agrees c rfl)

/-- A run of characters of one class ends in front of the fork, or the first way goes on with it. -/
theorem takeWhile_append (p : Char → Bool) (x : List Char) :
    (∃ y x', x = y ++ x' ∧ (x ++ F.first).takeWhile p = y ∧ (x ++ F.other).takeWhile p = y) ∨
      ((x ++ F.first).dropWhile p).length ≤ F.far.length := by
  induction x with
  | nil =>
    by_cases hp : p F.next = true
    · right
      show ((F.next :: F.far).dropWhile p).length ≤ _
      rw [List.dropWhile_cons_of_pos hp]
      exact (List.dropWhile_suffix p).length_le
    · refine .inl ⟨[], [], rfl, List.takeWhile_cons_of_neg hp, ?_⟩
      show F.other.takeWhile p = []
      obtain ⟨next, far, other, agrees⟩ := F
      cases other with
      | nil => rfl
      | cons c other =>
        obtain rfl := agrees c rfl
        exact List.takeWhile_cons_of_neg hp
  | cons c x ih =>
    by_cases hp : p c = true
    · rw [List.cons_append, List.cons_append, List.takeWhile_cons_of_pos hp,
        List.takeWhile_cons_of_pos hp, List.dropWhile_cons_of_pos hp]
      refine ih.imp_left ?_
      rintro ⟨y, x', hx, hy, hy'⟩
      exact ⟨c :: y, x', by rw [hx]; rfl, by rw [hy], by rw [hy']⟩
    · exact .inl ⟨[], c :: x, rfl, List.takeWhile_cons_of_neg hp, List.takeWhile_cons_of_neg hp⟩

/-- What is left of the first way ends behind the fork or begins in front of it. -/
theorem append_eq_append {x y rest : List Char} (h : x ++ F.first = y ++ rest) :
    rest.length ≤ F.far.length ∨ ∃ x', x = y ++ x' ∧ rest = x' ++ F.first := by
  rcases List.append_eq_append_iff.1 h with ⟨z, rfl, hz⟩ | ⟨x', rfl, rfl⟩
  · cases z with
    | nil => exact .inr ⟨[], by rw [List.append_nil, List.append_nil], hz.symm⟩
    | cons c z =>
      have hlen := congrArg List.length hz
      simp only [first, List.cons_append, List.length_cons, List.length_append] at hlen
      exact .inl (by omega)
  · exact .inr ⟨x', rfl, rfl⟩

end Fork

theorem skip_append (y t : List Char) (position : Nat) :
    (⟨y ++ t, position⟩ : Cursor).skip y.length = ⟨t, position + y.length⟩ := by
  unfold Cursor.skip
  rw [List.drop_left]

/-! ## Two results -/

/-- What a parser gives, and where it ends. -/
abbrev Outcome (α : Type) := EStateM.Result SyntaxError ParserState α

section

variable {F : Fork} {α β : Type} {n m : Nat} {r r' : Outcome α} {p p' : Parser α}
  {f f' : α → Parser β} {s s' : ParserState}

/-- The run has gone past the fork, or has failed otherwise than by a character out of place. -/
def Strays (F : Fork) : Outcome α → Prop
  | .ok _ s => s.cursor.rest.length ≤ F.far.length
  | .error e s => s.cursor.rest.length ≤ F.far.length ∨ ¬ e.Misplaced

/-- The run has stopped right at the fork. -/
def StopsAt (F : Fork) : Outcome α → Prop
  | .ok _ s | .error _ s => s.cursor.rest = F.first

/-- The run has come to the end of the source, and has at most found no operand. -/
def Tolerates : Outcome α → Prop
  | .ok _ s => s.cursor.rest = []
  | .error e _ => e = .emptyFormula

/-- Both runs have read the same in front of the fork, and stand `n` characters before it or less. -/
inductive Lockstep (F : Fork) (n : Nat) : Outcome α → Outcome α → Prop
  | same {a : α} {x : List Char} {position : Nat} {kept kept' : List (Option Expr)} :
      x.length ≤ n → Lockstep F n (.ok a ⟨⟨x ++ F.first, position⟩, kept⟩)
        (.ok a ⟨⟨x ++ F.other, position⟩, kept'⟩)
  | strays {r r' : Outcome α} : Strays F r → Lockstep F n r r'

/-- The second run follows the first one as far as this stays in front of the fork. -/
inductive Tracks (F : Fork) (n : Nat) : Outcome α → Outcome α → Prop
  | lockstep {r r' : Outcome α} : Lockstep F n r r' → Tracks F n r r'
  | fails {e : SyntaxError} {x : List Char} {position : Nat} {kept kept' : List (Option Expr)} :
      x ++ F.other ≠ [] → Tracks F n (.error e ⟨⟨x ++ F.first, position⟩, kept⟩)
        (.error e ⟨⟨x ++ F.other, position⟩, kept'⟩)
  | ends {r r' : Outcome α} : F.other = [] → StopsAt F r → Tolerates r' → Tracks F n r r'

theorem Lockstep.mono (h : Lockstep F n r r') (hnm : n ≤ m) : Lockstep F m r r' := by
  cases h with
  | same hx => exact .same (Nat.le_trans hx hnm)
  | strays hr => exact .strays hr

theorem Tracks.mono (h : Tracks F n r r') (hnm : n ≤ m) : Tracks F m r r' := by
  cases h with
  | lockstep h => exact .lockstep (h.mono hnm)
  | fails hne => exact .fails hne
  | ends ho hr hr' => exact .ends ho hr hr'

/-- The parser goes no way at the end of a source, and finds no fault with it. -/
def Quiet (p : Parser α) : Prop := ∀ position kept, Tolerates (p ⟨⟨[], position⟩, kept⟩)

theorem Tolerates.bind (h : Tolerates (p s)) (hf : ∀ a, Quiet (f a)) :
    Tolerates ((p >>= f) s) := by
  cases hr : p s with
  | ok a s =>
    rw [hr] at h
    rw [bind_of_ok hr]
    obtain ⟨⟨rest, position⟩, kept⟩ := s
    obtain rfl : rest = [] := h
    exact hf a position kept
  | error e s =>
    rw [hr] at h
    rw [bind_of_error hr]
    exact h

theorem Strays.bind (h : Strays F (p s)) (hf : ∀ a, Advances (f a)) : Strays F ((p >>= f) s) := by
  cases hr : p s with
  | ok a t =>
    rw [hr] at h
    rw [bind_of_ok hr]
    have hle : t.cursor.rest.length ≤ F.far.length := h
    have hlands := hf a t
    unfold AdvancesAt at hlands
    cases hr' : f a t with
    | ok b t' =>
      rw [hr'] at hlands
      exact Nat.le_trans hlands.length_le hle
    | error e t' =>
      rw [hr'] at hlands
      exact .inl (Nat.le_trans hlands.1.length_le hle)
  | error e t =>
    rw [hr] at h
    rw [bind_of_error hr]
    exact h

/-- From the fork, a parser either goes past it or stops there. -/
theorem strays_or_stopsAt (hp : Advances p) (hs : s.cursor.rest = F.first) :
    Strays F (p s) ∨ StopsAt F (p s) := by
  have hreach : ∀ c : Cursor, s.cursor.Reaches c →
      c.rest.length ≤ F.far.length ∨ c.rest = F.first := by
    rintro c ⟨t, ht, -⟩
    rw [hs] at ht
    cases t with
    | nil => exact .inr ht.symm
    | cons d t =>
      have hlen := congrArg List.length ht
      simp only [Fork.first, List.cons_append, List.length_cons, List.length_append] at hlen
      omega
  have hlands := hp s
  unfold AdvancesAt at hlands
  cases hr : p s with
  | ok a t =>
    rw [hr] at hlands
    exact hreach _ hlands
  | error e t =>
    rw [hr] at hlands
    exact (hreach _ hlands.1).imp_left .inl

theorem Lockstep.bind (h : Lockstep F n (p s) (p' s')) (hf : ∀ a, Advances (f a))
    (hff : ∀ a x position kept kept', x.length ≤ n →
      Tracks F n (f a ⟨⟨x ++ F.first, position⟩, kept⟩)
        (f' a ⟨⟨x ++ F.other, position⟩, kept'⟩)) :
    Tracks F n ((p >>= f) s) ((p' >>= f') s') := by
  generalize hr : p s = r at h
  generalize hr' : p' s' = r' at h
  cases h with
  | same hx =>
    rw [bind_of_ok hr, bind_of_ok hr']
    exact hff _ _ _ _ _ hx
  | strays h =>
    rw [← hr] at h
    exact .lockstep (.strays (h.bind hf))

theorem Tracks.bind (h : Tracks F n (p s) (p' s')) (hf : ∀ a, Advances (f a))
    (hquiet : ∀ a, Quiet (f' a))
    (hff : ∀ a x position kept kept', x.length ≤ n →
      Tracks F n (f a ⟨⟨x ++ F.first, position⟩, kept⟩)
        (f' a ⟨⟨x ++ F.other, position⟩, kept'⟩)) :
    Tracks F n ((p >>= f) s) ((p' >>= f') s') := by
  generalize hr : p s = r at h
  generalize hr' : p' s' = r' at h
  cases h with
  | lockstep h =>
    rw [← hr, ← hr'] at h
    exact h.bind hf hff
  | fails hne =>
    rw [bind_of_error hr, bind_of_error hr']
    exact .fails hne
  | ends ho hstops htol =>
    rw [← hr'] at htol
    have htol' := htol.bind hquiet
    cases r with
    | error e t =>
      refine .ends ho ?_ htol'
      rw [bind_of_error hr]
      exact hstops
    | ok a t =>
      rw [bind_of_ok hr]
      rcases strays_or_stopsAt (hf a) hstops with h | h
      · exact .lockstep (.strays h)
      · exact .ends ho h htol'

end

/-! ## Two parsers -/

section

variable {F : Fork} {α β : Type} {k k' : Nat} {p p' : Parser α} {f f' : α → Parser β} {c : Char}

/-- In front of sources of bounded lengths, the second parser follows the first one. -/
structure Follows (F : Fork) (k k' : Nat) (p p' : Parser α) : Prop where
  advances : Advances p
  quiet : Quiet p'
  tracks : ∀ x position kept kept', (x ++ F.first).length ≤ k → (x ++ F.other).length ≤ k' →
    Tracks F x.length (p ⟨⟨x ++ F.first, position⟩, kept⟩) (p' ⟨⟨x ++ F.other, position⟩, kept'⟩)

/-- The same where the next character is known to be `c`, for both sources. -/
structure FollowsAt (F : Fork) (k k' : Nat) (c : Char) (p p' : Parser α) : Prop where
  advances : ∀ s, s.cursor.peek 0 = some c → AdvancesAt p s
  tracks : ∀ x position kept kept', (x ++ F.first).head? = some c → (x ++ F.other).head? = some c →
    (x ++ F.first).length ≤ k → (x ++ F.other).length ≤ k' →
    Tracks F x.length (p ⟨⟨x ++ F.first, position⟩, kept⟩) (p' ⟨⟨x ++ F.other, position⟩, kept'⟩)

theorem Follows.at (h : Follows F k k' p p') : FollowsAt F k k' c p p' :=
  ⟨fun s _ => h.advances s, fun x position kept kept' _ _ => h.tracks x position kept kept'⟩

theorem Follows.mono {m m' : Nat} (h : Follows F k k' p p') (hm : m ≤ k) (hm' : m' ≤ k') :
    Follows F m m' p p' :=
  ⟨h.advances, h.quiet, fun x position kept kept' hk hk' =>
    h.tracks x position kept kept' (Nat.le_trans hk hm) (Nat.le_trans hk' hm')⟩

/-- No source with a fork in it is so short. -/
theorem follows_zero (h : Advances p) (hquiet : Quiet p') : Follows F 0 k' p p' := by
  refine ⟨h, hquiet, fun x position kept kept' hk _ => ?_⟩
  simp [Fork.first] at hk

theorem tracks_ends {n position : Nat} {kept kept' : List (Option Expr)} (ho : F.other = [])
    (hp : Advances p) (hquiet : Quiet p') :
    Tracks F n (p ⟨⟨F.first, position⟩, kept⟩) (p' ⟨⟨F.other, position⟩, kept'⟩) := by
  rw [ho]
  rcases strays_or_stopsAt (s := ⟨⟨F.first, position⟩, kept⟩) hp rfl with h | h
  · exact .lockstep (.strays h)
  · exact .ends ho h (hquiet position kept')

/-- The other source ends before it has begun. -/
theorem follows_end (hp : Advances p) (hquiet : Quiet p') : Follows F k 0 p p' := by
  refine ⟨hp, hquiet, fun x position kept kept' _ hk' => ?_⟩
  obtain ⟨rfl, ho⟩ := List.append_eq_nil_iff.1 (List.length_eq_zero_iff.1 (Nat.le_zero.1 hk'))
  exact tracks_ends ho hp hquiet

/-- Parsers with budgets, that are followed with one more if they are followed with what is left, are
followed in front of all sources that the budgets cover. -/
theorem follows_of_budget {ι : Type} {m m' : Nat} (p p' : Nat → ι → Parser α)
    (hp : ∀ budget i, Advances (p budget i)) (hquiet : ∀ budget i, Quiet (p' budget i))
    (hstep : ∀ {k k' budget budget' : Nat}, k < m → k' < m' → k ≤ budget → k' ≤ budget' →
      (∀ i, Follows F k k' (p budget i) (p' budget' i)) →
      ∀ i, Follows F (k + 1) (k' + 1) (p (budget + 1) i) (p' (budget' + 1) i))
    {budget budget' : Nat} (hm : m ≤ budget) (hm' : m' ≤ budget') (i : ι) :
    Follows F m m' (p budget i) (p' budget' i) := by
  have hall : ∀ k k' budget budget', k ≤ m → k' ≤ m' → k ≤ budget → k' ≤ budget' →
      ∀ i, Follows F k k' (p budget i) (p' budget' i) := by
    -- a source with a fork in it is not empty, and each step takes one character of both
    intro k
    induction k with
    | zero => exact fun k' budget budget' _ _ _ _ i => follows_zero (hp _ i) (hquiet _ i)
    | succ k ih =>
      rintro (_ | k') budget budget' hk hk' hbudget hbudget' i
      · exact follows_end (hp _ i) (hquiet _ i)
      · cases budget with
        | zero => exact absurd hbudget (Nat.not_succ_le_zero k)
        | succ budget =>
          cases budget' with
          | zero => exact absurd hbudget' (Nat.not_succ_le_zero k')
          | succ budget' =>
            have hless := Nat.le_of_succ_le_succ hbudget
            have hless' := Nat.le_of_succ_le_succ hbudget'
            exact hstep hk hk' hless hless'
              (ih k' budget budget' (Nat.le_of_succ_le hk) (Nat.le_of_succ_le hk') hless hless') i
  exact hall m m' budget budget' (Nat.le_refl _) (Nat.le_refl _) hm hm' i

theorem follows_pure (a : α) : Follows F k k' (pure a) (pure a) :=
  ⟨advances_pure a, fun _ _ => rfl, fun _ _ _ _ _ _ => .lockstep (.same (Nat.le_refl _))⟩

theorem Follows.of_lockstep (hp : Advances p) (hquiet : Quiet p')
    (h : ∀ x position kept kept', Lockstep F x.length (p ⟨⟨x ++ F.first, position⟩, kept⟩)
      (p' ⟨⟨x ++ F.other, position⟩, kept'⟩)) : Follows F k k' p p' :=
  ⟨hp, hquiet, fun x position kept kept' _ _ => .lockstep (h x position kept kept')⟩

theorem Follows.bind (hp : Follows F k k' p p') (hf : ∀ a, Follows F k k' (f a) (f' a)) :
    Follows F k k' (p >>= f) (p' >>= f') := by
  refine ⟨hp.advances.bind fun a => (hf a).advances,
    fun position kept => (hp.quiet position kept).bind fun a => (hf a).quiet,
    fun x position kept kept' hk hk' => ?_⟩
  refine (hp.tracks x position kept kept' hk hk').bind (fun a => (hf a).advances)
    (fun a => (hf a).quiet) ?_
  intro a x' position kept kept' hx
  rw [List.length_append] at hk hk'
  refine ((hf a).tracks x' position kept kept' ?_ ?_).mono hx <;> rw [List.length_append] <;> omega

/-- After a look at the next character, it is the same for both sources, or one of them has come to
its end. -/
theorem Follows.peek {f f' : Option Char → Parser β} (hend : Follows F k k' (f none) (f' none))
    (hf : ∀ c, FollowsAt F k k' c (f (some c)) (f' (some c))) :
    Follows F k k' (Parser.peek >>= f) (Parser.peek >>= f') := by
  have hp : Advances (Parser.peek >>= f) := by
    refine fun s => AdvancesAt.peek fun c? hc => ?_
    cases c? with
    | none => exact hend.advances s
    | some c => exact (hf c).advances s hc
  refine ⟨hp, hend.quiet, fun x position kept kept' hk hk' => ?_⟩
  by_cases hne : x ++ F.other = []
  · obtain ⟨rfl, ho⟩ := List.append_eq_nil_iff.1 hne
    exact tracks_ends ho hp hend.quiet
  · have hhead := F.head?_append hne
    obtain ⟨c, hc⟩ : ∃ c, (x ++ F.first).head? = some c := by
      cases x <;> exact ⟨_, rfl⟩
    rw [hc] at hhead
    have hpeek : ∀ (t : List Char) (position : Nat) (kept : List (Option Expr))
        (g : Option Char → Parser β), t.head? = some c →
        (Parser.peek >>= g) ⟨⟨t, position⟩, kept⟩ = g (some c) ⟨⟨t, position⟩, kept⟩ := by
      intro t position kept g ht
      show g t[0]? _ = _
      rw [← List.head?_eq_getElem?, ht]
    rw [hpeek _ _ _ f hc, hpeek _ _ _ f' hhead]
    exact (hf c).tracks x position kept kept' hc hhead hk hk'

end

/-! ## Tokens -/

section

variable {F : Fork} {α β : Type} {k k' : Nat} {f f' : Unit → Parser β} {c : Char}

theorem lockstep_skipBlanks (a : α) (x : List Char) (position : Nat)
    (kept kept' : List (Option Expr)) :
    Lockstep F x.length (.ok a ⟨Cursor.skipBlanks ⟨x ++ F.first, position⟩, kept⟩)
      (.ok a ⟨Cursor.skipBlanks ⟨x ++ F.other, position⟩, kept'⟩) := by
  rcases F.takeWhile_append Text.isBlank x with ⟨y, x', rfl, hy, hy'⟩ | hfar
  · have hskip : ∀ t : List Char, (y ++ x' ++ t).takeWhile Text.isBlank = y →
        (⟨y ++ x' ++ t, position⟩ : Cursor).skipBlanks = ⟨x' ++ t, position + y.length⟩ := by
      intro t ht
      unfold Cursor.skipBlanks Cursor.run
      rw [ht, List.append_assoc, skip_append]
    rw [hskip _ hy, hskip _ hy']
    exact .same (by rw [List.length_append]; exact Nat.le_add_left _ _)
  · refine .strays ?_
    show (Cursor.skipBlanks _).rest.length ≤ _
    rw [Cursor.rest_skipBlanks]
    exact hfar

theorem follows_skipBlanks : Follows F k k' (move Cursor.skipBlanks) (move Cursor.skipBlanks) :=
  .of_lockstep (advances_move reaches_skipBlanks) (fun _ _ => rfl) (lockstep_skipBlanks ())

theorem strays_shift (position : Nat) (kept : List (Option Expr)) :
    Strays F (shift ⟨⟨F.first, position⟩, kept⟩) := by
  show (Cursor.skipBlanks ⟨F.far, position + 1⟩).rest.length ≤ _
  rw [Cursor.rest_skipBlanks]
  exact (List.dropWhile_suffix _).length_le

theorem followsAt_shift : FollowsAt F k k' c shift shift := by
  refine ⟨fun s hc => advancesAt_shift hc, fun x position kept kept' _ _ _ _ => ?_⟩
  cases x with
  | nil => exact .lockstep (.strays (strays_shift position kept))
  | cons d x =>
    exact .lockstep ((lockstep_skipBlanks () x (position + 1) kept kept').mono (Nat.le_succ _))

/-- Behind a token of one character, the sources are shorter. -/
theorem FollowsAt.shift (hp : Advances (f ()))
    (h : ∀ x position kept kept', (x ++ F.first).length ≤ k → (x ++ F.other).length ≤ k' →
      Tracks F x.length (f () ⟨⟨x ++ F.first, position⟩, kept⟩)
        (f' () ⟨⟨x ++ F.other, position⟩, kept'⟩)) :
    FollowsAt F (k + 1) (k' + 1) c (shift >>= f) (shift >>= f') := by
  refine ⟨fun s hc => (advancesAt_shift hc).then fun _ => hp,
    fun x position kept kept' _ _ hk hk' => ?_⟩
  cases x with
  | nil => exact .lockstep (.strays ((strays_shift position kept).bind fun _ => hp))
  | cons d x =>
    have hlock : Lockstep F x.length (Parser.shift ⟨⟨d :: x ++ F.first, position⟩, kept⟩)
        (Parser.shift ⟨⟨d :: x ++ F.other, position⟩, kept'⟩) :=
      lockstep_skipBlanks () x (position + 1) kept kept'
    refine (hlock.bind (fun _ => hp) ?_).mono (Nat.le_succ _)
    intro _ x' position kept kept' hx
    simp only [List.cons_append, List.length_cons, List.length_append] at hk hk'
    refine (h x' position kept kept' ?_ ?_).mono hx <;> rw [List.length_append] <;> omega

theorem Follows.shift (h : Follows F k k' (f ()) (f' ())) :
    FollowsAt F (k + 1) (k' + 1) c (shift >>= f) (shift >>= f') :=
  .shift h.advances h.tracks

/-! ## Lexemes -/

/-- Reading a lexeme fails, goes past the fork, or ends in front of it, for both sources with the same
result. -/
def Parts (F : Fork) (read : Reader α) : Prop :=
  ∀ x position, (∃ e c, read ⟨x ++ F.first, position⟩ = (.error e, c) ∧ ¬ e.Misplaced) ∨
    (read ⟨x ++ F.first, position⟩).2.rest.length ≤ F.far.length ∨
    ∃ a y x' q, x = y ++ x' ∧ read ⟨x ++ F.first, position⟩ = (.ok a, ⟨x' ++ F.first, q⟩) ∧
      read ⟨x ++ F.other, position⟩ = (.ok a, ⟨x' ++ F.other, q⟩)

theorem Parts.lockstep {read : Reader α} (h : Parts F read) (x : List Char) (position : Nat)
    (kept kept' : List (Option Expr)) :
    Lockstep F x.length (lexeme read ⟨⟨x ++ F.first, position⟩, kept⟩)
      (lexeme read ⟨⟨x ++ F.other, position⟩, kept'⟩) := by
  rcases h x position with ⟨e, c, hread, he⟩ | hfar | ⟨a, y, x', q, rfl, hread, hread'⟩
  · refine .strays ?_
    unfold lexeme
    rw [hread]
    exact .inr he
  · refine .strays ?_
    unfold lexeme
    generalize read ⟨x ++ F.first, position⟩ = r at hfar
    obtain ⟨a | e, c⟩ := r
    · exact .inl hfar
    · show (Cursor.skipBlanks c).rest.length ≤ _
      rw [Cursor.rest_skipBlanks]
      exact Nat.le_trans (List.dropWhile_suffix _).length_le hfar
  · unfold lexeme
    rw [hread, hread']
    refine (lockstep_skipBlanks a x' q kept kept').mono ?_
    rw [List.length_append]
    exact Nat.le_add_left _ _

/-- Behind a lexeme, nothing else need be known of the two sources. -/
theorem Parts.bind {read : Reader α} {f f' : α → Parser β} (h : Parts F read)
    (hp : ∀ s, s.cursor.peek 0 = some c → AdvancesAt (lexeme read) s)
    (hf : ∀ a, Follows F k k' (f a) (f' a)) :
    FollowsAt F k k' c (lexeme read >>= f) (lexeme read >>= f') := by
  refine ⟨fun s hc => (hp s hc).then fun a => (hf a).advances,
    fun x position kept kept' _ _ hk hk' => ?_⟩
  refine (h.lockstep x position kept kept').bind (fun a => (hf a).advances) ?_
  intro a x' position kept kept' hx
  rw [List.length_append] at hk hk'
  refine ((hf a).tracks x' position kept kept' ?_ ?_).mono hx <;> rw [List.length_append] <;> omega

section

variable {y t : List Char}

theorem readNumber_of_run (h : (y ++ t).takeWhile Text.isNumeral = y) (position : Nat) :
    Cursor.readNumber ⟨y ++ t, position⟩ =
      ((Binary64.ofNumeral? y).elim (.error (.invalidNumber position)) .ok,
        ⟨t, position + y.length⟩) := by
  unfold Cursor.readNumber Cursor.run
  rw [h]
  simp only [skip_append]
  cases Binary64.ofNumeral? y <;> rfl

theorem readFormulaName_of_run (h : (y ++ t).takeWhile Char.isAlphanum = y) (position : Nat) :
    Cursor.readFormulaName ⟨y ++ t, position⟩ =
      if y = [] then (.error (.missingFormulaName position), ⟨y ++ t, position⟩)
      else (.ok (String.ofList y), ⟨t, position + y.length⟩) := by
  unfold Cursor.readFormulaName Cursor.run
  rw [h]
  cases y with
  | nil => rfl
  | cons c y => rw [if_neg nofun, ← skip_append]

theorem readName_of_run (h : (y ++ t).takeWhile Text.isNamePart = y)
    (hfirst : ((y ++ t)[0]?).any Char.isAlpha = true) (position : Nat) :
    Cursor.readName ⟨y ++ t, position⟩ = (.ok (String.ofList y), ⟨t, position + y.length⟩) := by
  unfold Cursor.readName Cursor.peek Cursor.run
  rw [if_pos hfirst, h, ← skip_append]

theorem readText_of_decode {c : Char} {s t rest : List Char} (h : Text.decode s = (t, some rest))
    (position : Nat) : Cursor.readText ⟨c :: s, position⟩ =
      (.ok (String.ofList t), ⟨rest, position + 1 + Text.encodedLength t + 1⟩) := by
  have hd : Text.decode (Cursor.advance ⟨c :: s, position⟩).rest = (t, some rest) := h
  simp only [Cursor.readText, hd]
  rfl

theorem readText_of_unclosed {c : Char} {s t : List Char} (h : Text.decode s = (t, none))
    (position : Nat) : Cursor.readText ⟨c :: s, position⟩ =
      (.error (.unclosedText (String.ofList t) position),
        ⟨[], position + 1 + Text.encodedLength t⟩) := by
  have hd : Text.decode (Cursor.advance ⟨c :: s, position⟩).rest = (t, none) := h
  simp only [Cursor.readText, hd]
  rfl

end

theorem parts_readNumber : Parts F Cursor.readNumber := by
  intro x position
  rcases F.takeWhile_append Text.isNumeral x with ⟨y, x', rfl, hy, hy'⟩ | hfar
  · rw [List.append_assoc] at hy hy'
    rw [List.append_assoc, List.append_assoc, readNumber_of_run hy, readNumber_of_run hy']
    cases Binary64.ofNumeral? y with
    | none => exact .inl ⟨_, _, rfl, id⟩
    | some v => exact .inr (.inr ⟨v, y, x', _, rfl, rfl, rfl⟩)
  · refine .inr (.inl ?_)
    rw [Cursor.readNumber_snd, Cursor.rest_skip_run]
    exact hfar

theorem parts_readFormulaName : Parts F Cursor.readFormulaName := by
  intro x position
  rcases F.takeWhile_append Char.isAlphanum x with ⟨y, x', rfl, hy, hy'⟩ | hfar
  · rw [List.append_assoc] at hy hy'
    rw [List.append_assoc, List.append_assoc, readFormulaName_of_run hy, readFormulaName_of_run hy']
    by_cases hnil : y = []
    · rw [if_pos hnil]
      exact .inl ⟨_, _, rfl, id⟩
    · rw [if_neg hnil, if_neg hnil]
      exact .inr (.inr ⟨_, y, x', _, rfl, rfl, rfl⟩)
  · by_cases hnil : (x ++ F.first).takeWhile Char.isAlphanum = []
    · refine .inl ?_
      unfold Cursor.readFormulaName Cursor.run
      rw [hnil]
      exact ⟨_, _, rfl, id⟩
    · refine .inr (.inl ?_)
      unfold Cursor.readFormulaName
      split
      · rename_i h
        exact absurd h hnil
      · rw [Cursor.rest_skip_run]
        exact hfar

theorem parts_readName : Parts F Cursor.readName := by
  intro x position
  by_cases hfirst : ((x ++ F.first)[0]?).any Char.isAlpha = true
  · rcases F.takeWhile_append Text.isNamePart x with ⟨y, x', rfl, hy, hy'⟩ | hfar
    · rw [List.append_assoc] at hy hy' hfirst
      have hfirst' : ((y ++ (x' ++ F.other))[0]?).any Char.isAlpha = true := by
        cases y with
        | cons c y => exact hfirst
        | nil =>
          -- the name has its first letter in front of the fork
          cases hx : x' ++ F.first with
          | nil => simp [Fork.first] at hx
          | cons c t =>
            rw [List.nil_append, hx] at hfirst hy
            have hc : c.isAlpha = true := hfirst
            have hpart : Text.isNamePart c = true := by
              rw [Text.isNamePart, Char.isAlphanum, hc, Bool.true_or, Bool.true_or]
            rw [List.takeWhile_cons_of_pos hpart] at hy
            exact absurd hy nofun
      rw [List.append_assoc, List.append_assoc, readName_of_run hy hfirst,
        readName_of_run hy' hfirst']
      exact .inr (.inr ⟨_, y, x', _, rfl, rfl, rfl⟩)
    · refine .inr (.inl ?_)
      unfold Cursor.readName Cursor.peek
      rw [if_pos hfirst, Cursor.rest_skip_run]
      exact hfar
  · unfold Cursor.readName Cursor.peek
    rw [if_neg hfirst]
    exact .inl ⟨_, _, rfl, id⟩

theorem parts_readText : Parts F Cursor.readText := by
  intro x position
  cases x with
  | nil => exact .inr (.inl (Cursor.advance_reaches_readText _).length_le)
  | cons c x =>
    rw [List.cons_append, List.cons_append]
    rcases hd : Text.decode (x ++ F.first) with ⟨t, _ | rest⟩
    · exact .inl ⟨_, _, readText_of_unclosed hd position, id⟩
    · right
      rw [readText_of_decode hd]
      have hsplit : x ++ F.first = (Text.encode t ++ ['"']) ++ rest := by
        rw [List.append_assoc]
        exact Text.eq_encode_of_decode hd
      refine (F.append_eq_append hsplit).imp_right ?_
      rintro ⟨x', rfl, rfl⟩
      have hquote : (x' ++ F.other).head? ≠ some '"' := by
        by_cases hne : x' ++ F.other = []
        · rw [hne]
          exact (Option.some_ne_none _).symm
        · rw [F.head?_append hne]
          exact Text.head?_of_decode hd
      have hd' : Text.decode ((Text.encode t ++ ['"'] ++ x') ++ F.other) =
          (t, some (x' ++ F.other)) := by
        rw [List.append_assoc, List.append_assoc]
        exact Text.decode_encode t hquote
      rw [readText_of_decode hd']
      exact ⟨_, c :: (Text.encode t ++ ['"']), x', _, rfl, rfl, rfl⟩

/-- A comparison as its first character and the one behind it decide it, and how long it is. -/
def comparisonAt : Option Char → Option Char → Option CompareOp × Nat
  | some '<', some '=' => (some .le, 2)
  | some '<', some '>' => (some .ne, 2)
  | some '<', _ => (some .lt, 1)
  | some '>', some '=' => (some .ge, 2)
  | some '>', _ => (some .gt, 1)
  | some '=', _ => (some .eq, 1)
  | _, _ => (none, 0)

theorem readComparison_eq (c : Cursor) : c.readComparison =
    ((comparisonAt (c.peek 0) (c.peek 1)).1, c.skip (comparisonAt (c.peek 0) (c.peek 1)).2) := by
  obtain ⟨rest, position⟩ := c
  rcases rest with _ | ⟨c, _ | ⟨d, s⟩⟩
  · rfl
  · by_cases hlt : c = '<' <;> by_cases hgt : c = '>' <;> by_cases heq : c = '=' <;>
      simp_all [Cursor.readComparison, comparisonAt, Cursor.peek, Cursor.skip]
  · by_cases hlt : c = '<' <;> by_cases hgt : c = '>' <;> by_cases heq : c = '=' <;>
      by_cases heq' : d = '=' <;> by_cases hgt' : d = '>' <;>
      simp_all [Cursor.readComparison, comparisonAt, Cursor.peek, Cursor.skip]

/-- Only a comparison of two characters depends on the second one. -/
theorem comparisonAt_eq_of_le_one {c? d? : Option Char} (h : (comparisonAt c? d?).2 ≤ 1) :
    comparisonAt c? none = comparisonAt c? d? := by
  unfold comparisonAt at h ⊢
  split at h <;> simp_all

theorem comparisonAt_eq_of_zero {c? d? : Option Char} (h : (comparisonAt c? d?).2 = 0)
    (e? : Option Char) : comparisonAt c? e? = (none, 0) := by
  unfold comparisonAt at h ⊢
  split at h <;> simp_all

theorem lockstep_comparison? (x : List Char) (position : Nat) (kept kept' : List (Option Expr)) :
    Lockstep F x.length (comparison? ⟨⟨x ++ F.first, position⟩, kept⟩)
      (comparison? ⟨⟨x ++ F.other, position⟩, kept'⟩) := by
  have hrun : ∀ (s : List Char) (kept : List (Option Expr)), comparison? ⟨⟨s, position⟩, kept⟩ =
      .ok (comparisonAt s[0]? s[1]?).1 ⟨⟨s.drop (comparisonAt s[0]? s[1]?).2,
        position + (comparisonAt s[0]? s[1]?).2⟩, kept⟩ := by
    intro s kept
    show EStateM.Result.ok (Cursor.readComparison ⟨s, position⟩).1
      (ParserState.mk (Cursor.readComparison ⟨s, position⟩).2 kept) = _
    rw [readComparison_eq]
    rfl
  rw [hrun, hrun]
  generalize h : comparisonAt (x ++ F.first)[0]? (x ++ F.first)[1]? = r
  obtain ⟨op?, n⟩ := r
  by_cases hn : n ≤ x.length
  · have hother : comparisonAt (x ++ F.other)[0]? (x ++ F.other)[1]? = (op?, n) := by
      rcases x with _ | ⟨c, _ | ⟨d, x⟩⟩
      · obtain rfl : n = 0 := Nat.le_zero.1 hn
        have hzero := comparisonAt_eq_of_zero (congrArg Prod.snd h)
        obtain rfl : op? = none := congrArg Prod.fst (h.symm.trans (hzero _))
        rcases ho : F.other with _ | ⟨c, s⟩
        · rfl
        · obtain rfl := F.agrees c (by rw [ho]; rfl)
          exact hzero _
      · have hone := comparisonAt_eq_of_le_one (Nat.le_trans (Nat.le_of_eq (congrArg Prod.snd h)) hn)
        rcases ho : F.other with _ | ⟨d, s⟩
        · exact hone.trans h
        · obtain rfl := F.agrees d (by rw [ho]; rfl)
          exact h
      · exact h
    rw [hother]
    show Lockstep F _ (.ok op? ⟨⟨(x ++ F.first).drop n, position + n⟩, kept⟩)
      (.ok op? ⟨⟨(x ++ F.other).drop n, position + n⟩, kept'⟩)
    rw [List.drop_append_of_le_length hn, List.drop_append_of_le_length hn]
    exact .same (by rw [List.length_drop]; exact Nat.sub_le _ _)
  · refine .strays ?_
    show ((x ++ F.first).drop n).length ≤ _
    simp only [Fork.first, List.length_drop, List.length_append, List.length_cons]
    omega

theorem follows_comparison? : Follows F k k' comparison? comparison? :=
  .of_lockstep advances_comparison? (fun _ _ => rfl) lockstep_comparison?

end

end Parser

end Formulary
