import Formulary.Proofs.Source.Budget
import Formulary.Proofs.Source.Faults
import Formulary.Proofs.Source.Lexemes
import Formulary.Proofs.Source.Operands

/-!
# Blanks between tokens

**Blanks between two tokens carry no meaning** (`parse_insert_blanks`). A source with blanks put into
it is read as the same tree, or fails for the same cause, whose position moves on by their number where
it is behind them. This holds wherever no literal is open and the characters on both sides of the
blanks do not belong together (`Apart`): blanks inside a name, a number or a comparison do change what
is read, and so do blanks between two quotes.

Both sources are read side by side. A `Gap` is the place where one of them has the blanks. In front of
it the two runs see the same characters, and behind it they see them at different positions
(`Gap.Aligned`). Only the token that ends at the gap takes one run to the blanks and the other one past
them (`Gap.Loose`). **A parser goes past the blanks behind each token before it looks on**, so whatever
it decides, it decides in front of the same character in both runs (`Gap.Keeps`).
-/

namespace Formulary

namespace SyntaxError

/-- The same cause with its position changed. -/
def mapPosition (f : Nat → Nat) : SyntaxError → SyntaxError
  | emptyFormula => emptyFormula
  | unexpected c p => unexpected c (f p)
  | unclosedBracket p => unclosedBracket (f p)
  | unclosedCall c p => unclosedCall c (f p)
  | unclosedText s p => unclosedText s (f p)
  | invalidNumber p => invalidNumber (f p)
  | missingName p => missingName (f p)
  | missingFormulaName p => missingFormulaName (f p)

variable {f : Nat → Nat} {e : SyntaxError}

@[simp] theorem description_mapPosition : (e.mapPosition f).description = e.description := by
  cases e <;> rfl

@[simp] theorem position?_mapPosition : (e.mapPosition f).position? = e.position?.map f := by
  cases e <;> rfl

end SyntaxError

namespace Parser

open Grammar Lexeme

/-! ## Places between tokens -/

/-- Behind each other, these two characters would be parts of one token or one literal. -/
def Joined (c d : Char) : Prop :=
  c = '"' ∧ d = '"' ∨ isWordPart c = true ∧ isWordPart d = true ∨
    c = '<' ∧ (d = '=' ∨ d = '>') ∨ c = '>' ∧ d = '='

instance : DecidableRel Joined := fun c d => by
  unfold Joined
  infer_instance

/-- Between these two texts no token goes on and no literal is open. -/
structure Apart (u v : List Char) : Prop where
  outside : Outside u
  not_joined : ∀ c ∈ u.getLast?, ∀ d ∈ v.head?, ¬ Joined c d

/-- Where a position is once `count` characters are put in at `place`. -/
def moved (place count position : Nat) : Nat :=
  if position < place then position else position + count

section

variable {c d : Char} {x y s t b : List Char} {p : Char → Bool}

theorem not_joined_of_blank (h : Text.isBlank d = true) : ¬ Joined c d := by
  rintro (⟨-, rfl⟩ | ⟨-, hd⟩ | ⟨-, rfl | rfl⟩ | ⟨-, rfl⟩)
  · cases h
  · rw [isBlank_eq_false_of_isWordPart hd] at h
    cases h
  all_goals cases h

theorem apart_nil : Apart [] t := ⟨rfl, nofun⟩

/-- Blanks in between change nothing. -/
theorem Apart.blank (h : Apart x t) (hb : Blank b) : Apart x (b ++ t) := by
  refine ⟨h.outside, ?_⟩
  cases b with
  | nil => exact h.not_joined
  | cons d b =>
    rintro c - _ ⟨⟩
    exact not_joined_of_blank (hb d List.mem_cons_self)

/-- Reading on up to the place changes nothing. -/
theorem Apart.drop (h : Apart (y ++ x) t) (hy : Outside y) : Apart x t := by
  refine ⟨(outside_append_iff hy).1 h.outside, fun c hc => h.not_joined c ?_⟩
  rw [List.getLast?_append, Option.mem_def.1 hc]
  rfl

theorem outside_of_forall (hp : p '"' = false) (h : ∀ c ∈ y, p c = true) : Outside y := by
  have hcount : y.count '"' = 0 := by
    refine List.count_eq_zero_of_not_mem fun hq => ?_
    rw [h _ hq] at hp
    cases hp
  rw [Outside, hcount]

/-- Whether a token goes on is decided in front of the place. -/
theorem Apart.stops (h : Apart (y ++ s) t) (hne : y ++ s ≠ [])
    (hp : ∀ c, p c = true → isWordPart c = true) (hy : ∀ c ∈ y, p c = true)
    (hs : ∀ c ∈ s.head?, p c = false) : ∀ c ∈ (s ++ t).head?, p c = false := by
  cases s with
  | cons d s => exact hs
  | nil =>
    rw [List.append_nil] at h hne
    intro d hd
    refine Bool.eq_false_iff.2 fun hpd => ?_
    have hlast := List.getLast?_eq_some_getLast hne
    exact h.not_joined _ hlast d hd (.inr (.inl ⟨hp _ (hy _ (List.getLast_mem hne)), hp d hpd⟩))

theorem eq_literal_of_decode {u : List Char} (h : Text.decode x = (u, some y)) :
    ∃ text : String, x = Text.encode text.toList ++ '"' :: y := by
  refine ⟨String.ofList u, ?_⟩
  rw [String.toList_ofList]
  exact Text.eq_encode_of_decode h

/-- Behind an odd number of quotes, a literal is closed. -/
theorem exists_closed (h : Outside ('"' :: x)) :
    ∃ (text : String) (y : List Char),
      x = Text.encode text.toList ++ '"' :: y ∧ y.head? ≠ some '"' := by
  rcases hd : Text.decode x with ⟨u, _ | y⟩
  · have hliteral := outside_literal u
    rw [Text.eq_encode_of_unclosed hd] at h
    unfold Outside at h hliteral
    simp only [List.count_cons_self, List.count_append, List.count_nil] at h hliteral
    omega
  · obtain ⟨text, hx⟩ := eq_literal_of_decode hd
    exact ⟨text, y, hx, Text.head?_of_decode hd⟩

/-- A literal in front of the place ends there. -/
theorem readText_of_apart (h : Outside ('"' :: x)) : ∃ text y s, '"' :: x = y ++ s ∧ Outside y ∧
    ∀ t position, Apart ('"' :: x) t →
      Cursor.readText ⟨'"' :: (x ++ t), position⟩ = (.ok text, ⟨s ++ t, position + y.length⟩) := by
  obtain ⟨text, s, rfl, hs⟩ := exists_closed h
  have hsplit : '"' :: (Text.encode text.toList ++ '"' :: s) =
      ('"' :: (Text.encode text.toList ++ ['"'])) ++ s := by simp
  refine ⟨text, _, s, hsplit, outside_literal _, fun t position ht => ?_⟩
  rw [List.append_assoc]
  refine readText_append ?_ position
  cases s with
  | cons d s => exact hs
  | nil =>
    -- a second quote right behind the closing one would be joined to it
    rw [hsplit, List.append_nil, ← List.cons_append] at ht
    exact fun hquote => ht.not_joined _ List.getLast?_concat _ hquote (.inl ⟨rfl, rfl⟩)

/-- A comparison has no quote in it. -/
theorem comparisonAt_cases (d : Char) (e? : Option Char) :
    comparisonAt (some d) e? = (none, 0) ∨ (∃ op, comparisonAt (some d) e? = (some op, 1) ∧ d ≠ '"') ∨
      ∃ op e, e? = some e ∧ comparisonAt (some d) e? = (some op, 2) ∧ d ≠ '"' ∧ e ≠ '"' := by
  unfold comparisonAt
  split <;> simp_all

/-- Two characters that are not joined make no comparison. -/
theorem comparisonAt_of_not_joined {d e : Char} (h : ¬ Joined d e) :
    comparisonAt (some d) (some e) = comparisonAt (some d) none := by
  unfold comparisonAt
  split <;> simp_all [Joined]

theorem comparisonAt_of_apart {d : Char} {x t : List Char} (h : Apart (d :: x) t) :
    comparisonAt (d :: (x ++ t))[0]? (d :: (x ++ t))[1]? = comparisonAt (some d) x.head? := by
  cases x with
  | cons e x => rfl
  | nil =>
    cases t with
    | nil => rfl
    | cons e t => exact comparisonAt_of_not_joined (h.not_joined d rfl e rfl)

/-- What a comparison is, if there is one, does not depend on what stands behind the place. -/
theorem readComparison_of_apart (hx : x ≠ []) : ∃ op? y s, x = y ++ s ∧ Outside y ∧
    ∀ t position, Apart x t →
      Cursor.readComparison ⟨x ++ t, position⟩ = (op?, ⟨s ++ t, position + y.length⟩) := by
  cases x with
  | nil => exact absurd rfl hx
  | cons d x =>
    have hread (t : List Char) (position : Nat) (h : Apart (d :: x) t) :
        Cursor.readComparison ⟨d :: (x ++ t), position⟩ = ((comparisonAt (some d) x.head?).1,
          Cursor.skip ⟨d :: (x ++ t), position⟩ (comparisonAt (some d) x.head?).2) := by
      rw [readComparison_eq, ← comparisonAt_of_apart h]
      rfl
    rcases comparisonAt_cases d x.head? with hat | ⟨op, hat, hd⟩ | ⟨op, e, he, hat, hd, he'⟩ <;>
      rw [hat] at hread
    · exact ⟨none, [], d :: x, rfl, rfl, hread⟩
    · refine ⟨some op, [d], x, rfl, ?_, hread⟩
      rw [Outside, List.count_cons_of_ne hd, List.count_nil]
    · obtain ⟨x, rfl⟩ := List.head?_eq_some_iff.1 he
      refine ⟨some op, [d, e], x, rfl, ?_, hread⟩
      rw [Outside, List.count_cons_of_ne hd, List.count_cons_of_ne he', List.count_nil]

end

/-! ## Two sources -/

/-- A place in a source, and blanks that are put in there. -/
structure Gap where
  /-- The number of characters in front of the place. -/
  place : Nat
  blanks : List Char
  /-- What stands behind the place. -/
  far : List Char
  blank : Blank blanks

namespace Gap

variable (G : Gap)

/-- Where a position is once the blanks are there. -/
abbrev moved : Nat → Nat := Parser.moved G.place G.blanks.length

/-- The cursors are at the same character of the source without the blanks and with them. -/
inductive Aligned : Cursor → Cursor → Prop
  | before {x : List Char} {position : Nat} : x ≠ [] → Apart x G.far →
      position + x.length = G.place →
      Aligned ⟨x ++ G.far, position⟩ ⟨x ++ (G.blanks ++ G.far), position⟩
  | behind {s : List Char} {position : Nat} : G.place ≤ position →
      Aligned ⟨s, position⟩ ⟨s, position + G.blanks.length⟩

/-- Or the second one still has the blanks in front of it. -/
inductive Loose : Cursor → Cursor → Prop
  | aligned {c c' : Cursor} : G.Aligned c c' → Loose c c'
  | gap : Loose ⟨G.far, G.place⟩ ⟨G.blanks ++ G.far, G.place⟩

variable {G} {c c' : Cursor}

theorem Aligned.position_eq (h : G.Aligned c c') : c'.position = G.moved c.position := by
  cases h with
  | @before x position hx _ hplace =>
    have hlength := List.length_pos_iff.2 hx
    show position = if position < G.place then _ else _
    rw [if_pos (by omega)]
  | @behind s position hplace =>
    show position + _ = if position < G.place then _ else _
    rw [if_neg (by omega)]

theorem Aligned.peek_eq (h : G.Aligned c c') : c'.peek 0 = c.peek 0 := by
  cases h with
  | @before x _ hx =>
    cases x with
    | nil => exact absurd rfl hx
    | cons d x => rfl
  | behind => rfl

theorem Loose.before {x : List Char} {position : Nat} (h : Apart x G.far)
    (hplace : position + x.length = G.place) :
    G.Loose ⟨x ++ G.far, position⟩ ⟨x ++ (G.blanks ++ G.far), position⟩ := by
  cases x with
  | nil =>
    obtain rfl : position = G.place := hplace
    exact .gap
  | cons d x => exact .aligned (.before (List.cons_ne_nil d x) h hplace)

/-- A part of what is in front of the place is read in both sources. -/
theorem Loose.read {y x : List Char} {position : Nat} (h : Apart (y ++ x) G.far) (hy : Outside y)
    (hplace : position + (y ++ x).length = G.place) :
    G.Loose ⟨x ++ G.far, position + y.length⟩ ⟨x ++ (G.blanks ++ G.far), position + y.length⟩ := by
  refine .before (h.drop hy) ?_
  rw [List.length_append] at hplace
  omega

theorem Loose.behind {s : List Char} {position n : Nat} (h : G.place ≤ position) :
    G.Loose ⟨s, position + n⟩ ⟨s, position + G.blanks.length + n⟩ := by
  rw [Nat.add_right_comm]
  exact .aligned (.behind (Nat.le_add_right_of_le h))

theorem Aligned.advance (h : G.Aligned c c') (hquote : c.peek 0 ≠ some '"') :
    G.Loose c.advance c'.advance := by
  cases h with
  | @before x position hx hapart hplace =>
    cases x with
    | nil => exact absurd rfl hx
    | cons d x =>
      have hd : Outside [d] := by
        have hne : d ≠ '"' := fun hd => hquote (congrArg some hd)
        rw [Outside, List.count_cons_of_ne hne, List.count_nil]
      exact .read (y := [d]) hapart hd hplace
  | behind hplace => exact .behind hplace

theorem skipBlanks_blanks {b t : List Char} (hb : Blank b) (position : Nat) :
    (⟨b ++ t, position⟩ : Cursor).skipBlanks = (⟨t, position + b.length⟩ : Cursor).skipBlanks := by
  unfold Cursor.skipBlanks Cursor.run Cursor.skip
  rw [List.takeWhile_append_of_pos hb, List.length_append, List.drop_length_add_append,
    Nat.add_assoc]

theorem skipBlanks_of_not_blank {d : Char} {t : List Char} (hd : Text.isBlank d = false)
    (position : Nat) : (⟨d :: t, position⟩ : Cursor).skipBlanks = ⟨d :: t, position⟩ :=
  skipBlanks_append blank_nil (fun c hc => by cases hc; exact hd) position

theorem skipBlanks_behind (s : List Char) {position : Nat} (h : G.place ≤ position) :
    G.Aligned (Cursor.skipBlanks ⟨s, position⟩)
      (Cursor.skipBlanks ⟨s, position + G.blanks.length⟩) := by
  unfold Cursor.skipBlanks Cursor.skip
  rw [Nat.add_right_comm]
  exact .behind (Nat.le_add_right_of_le h)

theorem skipBlanks_before {x : List Char} {position : Nat} (h : Apart x G.far)
    (hplace : position + x.length = G.place) :
    G.Aligned (Cursor.skipBlanks ⟨x ++ G.far, position⟩)
      (Cursor.skipBlanks ⟨x ++ (G.blanks ++ G.far), position⟩) := by
  induction x generalizing position with
  | nil =>
    obtain rfl : position = G.place := hplace
    rw [List.nil_append, List.nil_append, skipBlanks_blanks G.blank]
    exact skipBlanks_behind _ (Nat.le_refl _)
  | cons d x ih =>
    by_cases hd : Text.isBlank d = true
    · have hblank : Blank [d] := fun c hc => List.mem_singleton.1 hc ▸ hd
      have hdrop : Apart x G.far := h.drop (y := [d]) (outside_of_forall rfl hblank)
      have hskip (t : List Char) : (⟨d :: t, position⟩ : Cursor).skipBlanks =
          (⟨t, position + 1⟩ : Cursor).skipBlanks := skipBlanks_blanks hblank position
      rw [List.cons_append, List.cons_append, hskip, hskip]
      exact ih hdrop (by rw [← hplace, List.length_cons]; omega)
    · have hd := Bool.eq_false_iff.2 hd
      rw [List.cons_append, List.cons_append, skipBlanks_of_not_blank hd,
        skipBlanks_of_not_blank hd]
      exact .before (List.cons_ne_nil d x) h hplace

/-- **Behind the blanks, both cursors are at the same character.** -/
theorem Loose.skipBlanks (h : G.Loose c c') : G.Aligned c.skipBlanks c'.skipBlanks := by
  cases h with
  | gap => exact skipBlanks_before apart_nil (Nat.add_zero _)
  | aligned h =>
    cases h with
    | before _ hapart hplace => exact skipBlanks_before hapart hplace
    | behind hplace => exact skipBlanks_behind _ hplace

/-! ## Lexemes -/

/-- What both sources are read as: the same up to the change of positions. -/
inductive Matches {α : Type} (G : Gap) :
    Except SyntaxError α × Cursor → Except SyntaxError α × Cursor → Prop
  | ok {a : α} {c c' : Cursor} : G.Loose c c' → Matches G (.ok a, c) (.ok a, c')
  | error {e : SyntaxError} {c c' : Cursor} :
      Matches G (.error e, c) (.error (e.mapPosition G.moved), c')

/-- The characters that a token is made of are the same in both sources. -/
theorem Aligned.run {p : Char → Bool} (h : G.Aligned c c')
    (hp : ∀ d, p d = true → isWordPart d = true) : ∃ y s s' position,
      c = ⟨y ++ s, position⟩ ∧ c' = ⟨y ++ s', G.moved position⟩ ∧
        (y ++ s).takeWhile p = y ∧ (y ++ s').takeWhile p = y ∧
          G.Loose ⟨s, position + y.length⟩ ⟨s', G.moved position + y.length⟩ := by
  have hposition := h.position_eq
  cases h with
  | @behind s position hplace =>
    obtain ⟨y, s, rfl, hy, hs⟩ := exists_run p s
    have hrun := takeWhile_append_stop hy hs
    refine ⟨y, s, s, position, rfl, congrArg (Cursor.mk _) hposition, hrun, hrun, ?_⟩
    rw [← hposition]
    exact .behind hplace
  | @before x position hx hapart hplace =>
    obtain ⟨y, s, rfl, hy, hs⟩ := exists_run p x
    have hquote : p '"' = false := Bool.eq_false_iff.2 fun hq => absurd (hp _ hq) (by decide)
    have hfar := takeWhile_append_stop hy (hapart.stops hx hp hy hs)
    have hblanks := takeWhile_append_stop hy ((hapart.blank G.blank).stops hx hp hy hs)
    rw [List.append_assoc, List.append_assoc] at hposition ⊢
    refine ⟨y, _, _, position, rfl, congrArg (Cursor.mk _) hposition, hfar, hblanks, ?_⟩
    rw [← hposition]
    exact .read hapart (outside_of_forall hquote hy) hplace

theorem matches_readNumber (h : G.Aligned c c') :
    Matches G (Cursor.readNumber c) (Cursor.readNumber c') := by
  obtain ⟨y, s, s', position, rfl, rfl, hrun, hrun', hloose⟩ :=
    h.run fun _ => isWordPart_of_isNumeral
  rw [readNumber_of_run hrun, readNumber_of_run hrun']
  cases Binary64.ofNumeral? y with
  | none => exact .error
  | some x => exact .ok hloose

theorem matches_readFormulaName (h : G.Aligned c c') :
    Matches G (Cursor.readFormulaName c) (Cursor.readFormulaName c') := by
  obtain ⟨y, s, s', position, rfl, rfl, hrun, hrun', hloose⟩ :=
    h.run fun _ => isWordPart_of_isAlphanum
  rw [readFormulaName_of_run hrun, readFormulaName_of_run hrun']
  by_cases hnil : y = []
  · rw [if_pos hnil, if_pos hnil]
    exact .error
  · rw [if_neg hnil, if_neg hnil]
    exact .ok hloose

theorem matches_readName (h : G.Aligned c c') :
    Matches G (Cursor.readName c) (Cursor.readName c') := by
  have hpeek := congrArg (Option.any Char.isAlpha) h.peek_eq
  obtain ⟨y, s, s', position, rfl, rfl, hrun, hrun', hloose⟩ :=
    h.run fun _ => isWordPart_of_isNamePart
  by_cases hfirst : ((y ++ s)[0]?).any Char.isAlpha = true
  · rw [readName_of_run hrun hfirst, readName_of_run hrun' (hpeek.trans hfirst)]
    exact .ok hloose
  · have hfirst' : ¬ ((y ++ s')[0]?).any Char.isAlpha = true :=
      fun h => hfirst (hpeek.symm.trans h)
    unfold Cursor.readName Cursor.peek
    rw [if_neg hfirst, if_neg hfirst']
    exact .error

theorem matches_readText (h : G.Aligned c c') (hquote : c.peek 0 = some '"') :
    Matches G (Cursor.readText c) (Cursor.readText c') := by
  have hposition := h.position_eq
  cases h with
  | @behind s position hplace =>
    obtain ⟨x, rfl⟩ := List.head?_eq_some_iff.1 ((List.head?_eq_getElem? ..).trans hquote)
    rcases hd : Text.decode x with ⟨t, _ | y⟩
    · rw [readText_of_unclosed hd, readText_of_unclosed hd,
        show position + G.blanks.length = G.moved position from hposition]
      exact .error
    · have hy := Text.head?_of_decode hd
      obtain ⟨text, rfl⟩ := eq_literal_of_decode hd
      rw [readText_append hy, readText_append hy]
      exact .ok (.behind hplace)
  | @before x position hx hapart hplace =>
    cases x with
    | nil => exact absurd rfl hx
    | cons c x =>
      obtain rfl : c = '"' := Option.some.inj hquote
      obtain ⟨text, y, s, hsplit, hy, hread⟩ := readText_of_apart hapart.outside
      rw [List.cons_append, List.cons_append, hread _ _ hapart, hread _ _ (hapart.blank G.blank)]
      rw [hsplit] at hapart hplace
      exact .ok (.read hapart hy hplace)

theorem Aligned.readComparison (h : G.Aligned c c') : ∃ op? d d',
    c.readComparison = (op?, d) ∧ c'.readComparison = (op?, d') ∧ G.Loose d d' := by
  cases h with
  | behind hplace =>
    rw [readComparison_eq, readComparison_eq]
    exact ⟨_, _, _, rfl, rfl, .behind hplace⟩
  | before hx hapart hplace =>
    obtain ⟨op?, y, s, rfl, hy, hread⟩ := readComparison_of_apart hx
    exact ⟨op?, _, _, hread _ _ hapart, hread _ _ (hapart.blank G.blank),
      .read hapart hy hplace⟩

/-! ## Two runs -/

section

variable {α β : Type} {R : Cursor → Cursor → Prop} {p : Parser α} {f : α → Parser β}

/-- Both runs have the same result, up to the change of positions, and go on at the same character. -/
inductive Agree {α : Type} (G : Gap) : Outcome α → Outcome α → Prop
  | ok {a : α} {c c' : Cursor} {kept : List (Option Expr)} : G.Aligned c c' →
      Agree G (.ok a ⟨c, kept⟩) (.ok a ⟨c', kept⟩)
  | error {e : SyntaxError} {c c' : Cursor} {kept : List (Option Expr)} :
      Agree G (.error e ⟨c, kept⟩) (.error (e.mapPosition G.moved) ⟨c', kept⟩)

/-- From cursors so related, the two runs of the parser agree. -/
def Keeps (G : Gap) (R : Cursor → Cursor → Prop) (p : Parser α) : Prop :=
  ∀ c c' kept, R c c' → Agree G (p ⟨c, kept⟩) (p ⟨c', kept⟩)

/-- The next character is known. -/
def At (G : Gap) (d? : Option Char) (c c' : Cursor) : Prop := G.Aligned c c' ∧ c.peek 0 = d?

theorem keeps_pure (a : α) : G.Keeps G.Aligned (pure a : Parser α) := fun _ _ _ h => .ok h

theorem Keeps.at {d? : Option Char} (h : G.Keeps G.Aligned p) : G.Keeps (G.At d?) p :=
  fun c c' kept hc => h c c' kept hc.1

theorem Agree.bind {s s' : ParserState} (h : Agree G (p s) (p s'))
    (hf : ∀ a, G.Keeps G.Aligned (f a)) : Agree G ((p >>= f) s) ((p >>= f) s') := by
  show Agree G (EStateM.bind p f s) (EStateM.bind p f s')
  unfold EStateM.bind
  generalize p s = r at h
  generalize p s' = r' at h
  cases h with
  | ok hc => exact hf _ _ _ _ hc
  | error => exact .error

theorem Keeps.bind (h : G.Keeps R p) (hf : ∀ a, G.Keeps G.Aligned (f a)) :
    G.Keeps R (p >>= f) :=
  fun c c' kept hc => (h c c' kept hc).bind hf

theorem Keeps.peek {f : Option Char → Parser β} (hf : ∀ d?, G.Keeps (G.At d?) (f d?)) :
    G.Keeps G.Aligned (Parser.peek >>= f) := by
  intro c c' kept h
  show Agree G (f (c.peek 0) _) (f (c'.peek 0) _)
  rw [h.peek_eq]
  exact hf _ c c' kept ⟨h, rfl⟩

theorem keeps_skipBlanks : G.Keeps G.Loose (move Cursor.skipBlanks) :=
  fun _ _ _ h => .ok h.skipBlanks

/-- A token of one character is gone past, and the blanks behind it. -/
theorem keeps_shift {d? : Option Char} (hd : d? ≠ some '"') : G.Keeps (G.At d?) shift :=
  fun _ _ _ h => .ok (h.1.advance (h.2 ▸ hd)).skipBlanks

theorem keeps_lexeme {read : Reader α} (h : ∀ c c', R c c' → Matches G (read c) (read c')) :
    G.Keeps R (lexeme read) := by
  intro c c' kept hc
  have hread := h c c' hc
  unfold lexeme
  generalize read c = r at hread
  generalize read c' = r' at hread
  cases hread with
  | ok hloose => exact .ok hloose.skipBlanks
  | error => exact .error

theorem keeps_readNumber : G.Keeps G.Aligned (lexeme Cursor.readNumber) :=
  keeps_lexeme fun _ _ h => matches_readNumber h

theorem keeps_readName : G.Keeps G.Aligned (lexeme Cursor.readName) :=
  keeps_lexeme fun _ _ h => matches_readName h

theorem keeps_readFormulaName : G.Keeps G.Aligned (lexeme Cursor.readFormulaName) :=
  keeps_lexeme fun _ _ h => matches_readFormulaName h

theorem keeps_readText : G.Keeps (G.At (some '"')) (lexeme Cursor.readText) :=
  keeps_lexeme fun _ _ h => matches_readText h.1 h.2

theorem keeps_fault {cause : Nat → SyntaxError}
    (h : ∀ position, (cause position).mapPosition G.moved = cause (G.moved position)) :
    G.Keeps G.Aligned (fault cause : Parser α) := by
  intro c c' kept hc
  show Agree G (.error (cause c.position) _) (.error (cause c'.position) _)
  rw [hc.position_eq, ← h]
  exact .error

theorem keeps_missingOperand (e? : Option Expr) : G.Keeps G.Aligned (missingOperand e?) := by
  refine .peek fun d? => ?_
  cases d? with
  | some d => exact (keeps_fault fun _ => rfl).at
  | none => exact fun _ _ _ h => .ok h.1

theorem keeps_closing {otherwise : Char → Nat → SyntaxError}
    (h : ∀ d position, (otherwise d position).mapPosition G.moved = otherwise d (G.moved position)) :
    G.Keeps G.Aligned (closing otherwise) := by
  refine .peek fun d? => ?_
  split
  · exact keeps_shift (by decide)
  · exact (keeps_fault (h _)).at
  · exact (keeps_pure ()).at

/-- Blanks come behind a comparison, and none has been read where there is no comparison. -/
theorem Keeps.comparison? {f : Option CompareOp → Parser β} (hnone : G.Keeps G.Aligned (f none))
    (hsome : ∀ op, G.Keeps G.Loose (f (some op))) :
    G.Keeps G.Aligned (Parser.comparison? >>= f) := by
  intro c c' kept h
  obtain ⟨op?, d, d', hread, hread', hloose⟩ := h.readComparison
  show Agree G (f c.readComparison.1 ⟨c.readComparison.2, kept⟩)
    (f c'.readComparison.1 ⟨c'.readComparison.2, kept⟩)
  rw [hread, hread']
  cases op? with
  | none =>
    obtain rfl := Cursor.readComparison_none hread
    obtain rfl := Cursor.readComparison_none hread'
    exact hnone _ _ kept h
  | some op => exact hsome op d d' kept hloose

end

/-! ## Levels -/

section

variable {n budget : Nat} {nested side : Parser (Option Expr)}

theorem keeps_bracket (h : G.Keeps G.Aligned nested) : G.Keeps (G.At (some '(')) (bracket nested) := by
  refine (keeps_shift (by decide)).bind fun _ => h.bind fun e? => ?_
  cases e? with
  | none => exact keeps_missingOperand none
  | some e => exact (keeps_closing fun _ _ => rfl).bind fun _ => keeps_pure _

theorem keeps_arguments (h : G.Keeps G.Aligned nested) (read : List Expr) :
    G.Keeps G.Aligned (arguments nested budget read) := by
  induction budget generalizing read with
  | zero => exact keeps_pure _
  | succ budget ih =>
    refine h.bind fun e? => .peek fun d? => ?_
    split
    · exact (keeps_shift (by decide)).bind fun _ => ih _
    · exact (keeps_pure _).at

theorem keeps_named (h : G.Keeps G.Aligned nested) : G.Keeps G.Aligned (named nested budget) := by
  refine keeps_readName.bind fun name => .peek fun d? => ?_
  split
  · refine (keeps_shift (by decide)).bind fun _ => (keeps_arguments h []).bind fun es => ?_
    exact (keeps_closing fun _ _ => rfl).bind fun _ => keeps_pure _
  · exact (keeps_pure _).at

theorem keeps_reference : G.Keeps (G.At (some '=')) reference :=
  (keeps_shift (by decide)).bind fun _ =>
    keeps_readFormulaName.bind fun _ => keeps_pure _

theorem keeps_operand (h : G.Keeps G.Aligned nested) : G.Keeps G.Aligned (operand nested budget) := by
  refine .peek fun d? => ?_
  cases d? with
  | none => exact (keeps_pure none).at
  | some d =>
    show G.Keeps _ (if d = '(' then _ else if d = '"' then _ else if Text.isNumeral d then _ else
      if d.isAlpha then _ else if d = '=' then _ else _)
    split_ifs with hbracket hquote _ _ hequals
    · exact hbracket ▸ keeps_bracket h
    · exact hquote ▸ keeps_readText.bind fun _ => keeps_pure _
    · exact (keeps_readNumber.bind fun _ => keeps_pure _).at
    · exact (keeps_named h).at
    · exact hequals ▸ keeps_reference
    · exact (keeps_pure none).at

theorem keeps_signed (h : G.Keeps G.Aligned side) : G.Keeps G.Aligned (signed side budget) := by
  induction budget with
  | zero => exact keeps_pure none
  | succ budget ih =>
    refine .peek fun d? => ?_
    split
    · refine (keeps_shift (by decide)).bind fun _ => ih.bind fun e? => ?_
      cases e? with
      | none => exact keeps_missingOperand none
      | some e => exact keeps_pure _
    · exact (keeps_shift (by decide)).bind fun _ => ih
    · exact h.at

theorem keeps_chain (h : G.Keeps G.Aligned side) (left : Expr) :
    G.Keeps G.Aligned (chain n side budget left) := by
  induction budget generalizing left with
  | zero => exact keeps_pure _
  | succ budget ih =>
    refine .peek fun d? => ?_
    split
    · exact (keeps_pure _).at
    · rename_i op hop
      have hquote : d? ≠ some '"' := by
        rintro rfl
        cases hop
      refine (keeps_shift hquote).bind fun _ => h.bind fun right? => ?_
      cases right? with
      | none => exact keeps_missingOperand _
      | some right => exact ih _

theorem keeps_operation (h : G.Keeps G.Aligned side) :
    G.Keeps G.Aligned (operation n side budget) := by
  refine h.bind fun left? => ?_
  cases left? with
  | none => exact keeps_pure none
  | some left => exact keeps_chain h left

theorem keeps_comparison (h : G.Keeps G.Aligned side) : G.Keeps G.Aligned (comparison side) := by
  refine h.bind fun left? => ?_
  cases left? with
  | none => exact keeps_pure none
  | some left =>
    refine .comparison? (keeps_pure _) fun op => keeps_skipBlanks.bind fun _ => h.bind fun right? => ?_
    cases right? with
    | none => exact keeps_missingOperand _
    | some right => exact keeps_pure _

theorem keeps_expression : G.Keeps G.Aligned (expression budget) := by
  induction budget with
  | zero => exact keeps_pure none
  | succ budget ih =>
    exact keeps_comparison (keeps_operation (keeps_operation (keeps_operation
      (keeps_signed (keeps_operand ih)))))

theorem keeps_marker : G.Keeps G.Loose marker := by
  refine keeps_skipBlanks.bind fun _ => .peek fun d? => ?_
  split
  · exact keeps_shift (by decide)
  · exact (keeps_pure ()).at

/-- Both runs of a formula agree, also where one of them begins with the blanks. -/
theorem keeps_formula : G.Keeps G.Loose (formula budget) := by
  refine keeps_marker.bind fun _ => keeps_expression.bind fun e? => .peek fun d? => ?_
  split
  · exact (keeps_fault fun _ => rfl).at
  · exact (keeps_pure _).at
  · exact fun _ _ _ _ => .error

end

end Gap

/-! ## Sources -/

theorem agree_readAll {u v b : List Char} (hb : Blank b) (h : Apart u v) :
    Gap.Agree ⟨u.length, b, v, hb⟩ (readAll (u ++ v)) (readAll (u ++ (b ++ v))) := by
  let G : Gap := ⟨u.length, b, v, hb⟩
  have hbudget : readAll (u ++ v) = formula (u ++ (b ++ v)).length ⟨⟨u ++ v, 0⟩, []⟩ := by
    refine formula_eq_of_budget (Nat.le_refl _) ?_
    simp only [List.length_append]
    omega
  rw [hbudget]
  exact G.keeps_formula _ _ [] (.before h (Nat.zero_add _))

section

variable {u b v : String}

/-- With the blanks, the same trees are kept as well where the source ends too early. -/
theorem ofSource_insert_blanks (hb : Blank b.toList) (h : Apart u.toList v.toList) :
    Reading.ofSource (u ++ b ++ v) =
      ⟨(Reading.ofSource (u ++ v)).outcome.mapError
          (SyntaxError.mapPosition (moved u.length b.length)),
        (Reading.ofSource (u ++ v)).kept⟩ := by
  have hagree := agree_readAll hb h
  have hblanks : u.toList ++ (b.toList ++ v.toList) = (u ++ b ++ v).toList := by simp
  rw [← String.toList_append, hblanks, readAll_toList, readAll_toList] at hagree
  unfold Reading.ofSource
  generalize formula (u ++ v).length ⟨.start (u ++ v), []⟩ = r at hagree
  generalize formula (u ++ b ++ v).length ⟨.start (u ++ b ++ v), []⟩ = r' at hagree
  cases hagree with
  | ok => rfl
  | error =>
    rw [← String.length_toList, ← String.length_toList]
    rfl

/-- **Blanks between tokens carry no meaning**, in accepted and in rejected sources. -/
theorem parse_insert_blanks (hb : Blank b.toList) (h : Apart u.toList v.toList) :
    Expr.parse (u ++ b ++ v) =
      (Expr.parse (u ++ v)).mapError (SyntaxError.mapPosition (moved u.length b.length)) := by
  unfold Expr.parse
  rw [ofSource_insert_blanks hb h]

/-- The blanks are in front of an operator whose second operand is missing. -/
theorem parse_blanks_before_operator :
    Blank "\u00a0 ".toList ∧ Apart "=2*(a".toList "*)+b".toList ∧
      Expr.parse ("=2*(a" ++ "\u00a0 " ++ "*)+b") = .error (.unexpected ')' 8) := by
  have hb : Blank "\u00a0 ".toList := fun c hc => List.all_eq_true.1 (by rfl) c hc
  have h : Apart "=2*(a".toList "*)+b".toList := by
    refine ⟨by decide, fun c hc d hd => ?_⟩
    obtain rfl : 'a' = c := Option.some.inj hc
    obtain rfl : '*' = d := Option.some.inj hd
    decide
  have hparse : Expr.parse "=2*(a*)+b" = .error (.unexpected ')' 6) := by rfl
  refine ⟨hb, h, ?_⟩
  rw [parse_insert_blanks hb h, show "=2*(a" ++ "*)+b" = "=2*(a*)+b" by rfl, hparse]
  rfl

end

end Parser

end Formulary
