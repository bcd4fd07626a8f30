import Formulary.Number.External
import Formulary.Proofs.Number.Reading

/-!
# The numbers of a source

A number is read from a *numeral*, the longest run of digits and dots at the cursor. Its first dot
is the point, but a dot in front of all digits is none, and neither is any dot behind another one.
`Numeral.value` is the number that is written so, as a rational number.

**Reading gives the double nearest to this number, and fails if and only if there is no digit**
(`readNumber_numeral`). All of the numeral is taken, whether or not it makes a number. Behind a dot,
further dots make no difference.

A reader that looks at one character at a time takes a walk along the numeral and keeps the digits
and at most one dot (`Numeral.walk`). What it has kept at the end is a number in the wider notation
of `Binary64.ofText?`, or it is empty (`ofText?_kept`). So the walk comes to the same number as the
parts of the numeral do (`Numeral.readNumber_eq_read`). The induction is on the part of the numeral
before its first dot, where all is kept, and then on the part behind it, where only digits are.
-/

namespace Formulary

open Binary64 (IsReading numeralParts ofNumeral? magnitude? ofText?)

namespace Numeral

/-! ## The number that a numeral stands for -/

/-- The number of digits behind the point of a numeral. The point is its first dot, unless the
numeral begins with it. -/
def places (s : List Char) : Nat :=
  if s.head? = some '.' then 0 else (s.dropWhile (· != '.')).countP Char.isDigit

/-- The number that the digits of a numeral stand for, with the point in its place. -/
def value (s : List Char) : ℚ := ofDigits (s.filter Char.isDigit) / 10 ^ places s

section

variable {s t whole fraction rest : List Char} {c : Char} {x : Float}

theorem isDigit_of_ne_dot (hc : Text.isNumeral c = true) (hdot : c ≠ '.') : c.isDigit = true := by
  rw [Text.isNumeral, Bool.or_eq_true, beq_iff_eq] at hc
  exact hc.resolve_right hdot

theorem isNumeral_of_isDigit (hc : c.isDigit = true) : Text.isNumeral c = true := by
  rw [Text.isNumeral, hc, Bool.true_or]

theorem ne_dot_of_isDigit (hc : c.isDigit = true) : c ≠ '.' := by
  rintro rfl
  exact absurd hc (by decide)

/-- In a numeral, digits are what is no dot. -/
theorem filter_ne_dot (hs : ∀ c ∈ s, Text.isNumeral c = true) :
    s.filter (· != '.') = s.filter Char.isDigit := by
  refine List.filter_congr fun c hc => ?_
  by_cases hdot : c = '.'
  · rw [hdot]
    rfl
  · rw [isDigit_of_ne_dot (hs c hc) hdot, bne_iff_ne.2 hdot]

theorem numeralParts_of_head (hhead : s.head? ≠ some '.') :
    numeralParts s = (s.takeWhile (· != '.'), (s.dropWhile (· != '.')).filter (· != '.')) := by
  unfold numeralParts
  split
  · exact absurd rfl hhead
  · rfl

/-- A numeral with digits in front is cut where its first dot is. -/
theorem exists_point (hs : ∀ c ∈ s, Text.isNumeral c = true) (hhead : s.head? ≠ some '.') :
    ∃ whole behind, s = whole ++ behind ∧ (∀ c ∈ whole, c.isDigit = true) ∧
      (∀ c ∈ behind.head?, c = '.') ∧ s.dropWhile (· != '.') = behind ∧
      numeralParts s = (whole, behind.filter (· != '.')) := by
  have hparts := numeralParts_of_head hhead
  obtain ⟨whole, behind, rfl, hne, hstop⟩ := Parser.exists_run (· != '.') s
  have hdrop := Parser.dropWhile_append_stop hne hstop
  rw [Parser.takeWhile_append_stop hne hstop, hdrop] at hparts
  refine ⟨whole, behind, rfl, fun c hc => ?_, fun c hc => ?_, hdrop, hparts⟩
  · exact isDigit_of_ne_dot (hs c (List.mem_append_left _ hc)) (bne_iff_ne.1 (hne c hc))
  · simpa using hstop c hc

/-- The parts of a numeral are its digits, and those of the second part stand behind the point. -/
theorem parts_eq (hs : ∀ c ∈ s, Text.isNumeral c = true) :
    (numeralParts s).1 ++ (numeralParts s).2 = s.filter Char.isDigit ∧
      (numeralParts s).2.length = places s := by
  by_cases hhead : s.head? = some '.'
  · obtain ⟨t, rfl⟩ := List.head?_eq_some_iff.1 hhead
    have hdigits := filter_ne_dot hs
    refine ⟨?_, rfl⟩
    rw [← hdigits]
    exact List.append_nil _
  · obtain ⟨whole, behind, rfl, hwhole, -, hdrop, hparts⟩ := exists_point hs hhead
    have hbehind := (List.forall_mem_append.1 hs).2
    rw [hparts, filter_ne_dot hbehind]
    refine ⟨?_, ?_⟩
    · rw [List.filter_append, List.filter_eq_self.2 hwhole]
    · rw [places, if_neg hhead, hdrop, List.countP_eq_length_filter]

theorem ofNumeral?_eq (s : List Char) : ofNumeral? s =
    if (numeralParts s).1 ++ (numeralParts s).2 = [] then none
    else some (Decimal.ofParts (numeralParts s).1 (numeralParts s).2).toFloat := by
  rw [ofNumeral?]
  rcases numeralParts s with ⟨_ | ⟨c, whole⟩, _ | ⟨d, fraction⟩⟩ <;> rfl

theorem value_ofParts (hs : ∀ c ∈ s, Text.isNumeral c = true) :
    (Decimal.ofParts (numeralParts s).1 (numeralParts s).2).value = value s := by
  obtain ⟨hdigits, hplaces⟩ := parts_eq hs
  rw [Decimal.value, Decimal.ofParts, value, hdigits, hplaces, zpow_neg, zpow_natCast,
    div_eq_mul_inv]

theorem ofNumeral?_eq_none_iff (hs : ∀ c ∈ s, Text.isNumeral c = true) :
    ofNumeral? s = none ↔ ∀ c ∈ s, c.isDigit = false := by
  have hnone : (∀ c ∈ s, c.isDigit = false) ↔ s.filter Char.isDigit = [] := by
    simp only [List.filter_eq_nil_iff, Bool.not_eq_true]
  rw [hnone, ← (parts_eq hs).1, ofNumeral?_eq]
  split
  · exact iff_of_true rfl ‹_›
  · exact iff_of_false (Option.some_ne_none _) ‹_›

/-- What is read from a numeral is the double that its number is to be read as. -/
theorem isReading_of_ofNumeral? (hs : ∀ c ∈ s, Text.isNumeral c = true)
    (hx : ofNumeral? s = some x) : IsReading (value s) x := by
  rw [ofNumeral?_eq] at hx
  split_ifs at hx
  rw [← Option.some.inj hx, ← value_ofParts hs]
  exact Decimal.isReading_toFloat _

/-! ## A numeral in a wider notation -/

theorem digitRun_append (hwhole : ∀ c ∈ whole, c.isDigit = true)
    (hrest : ∀ c ∈ rest.head?, c = '.') : digitRun (whole ++ rest) = (whole, rest) := by
  induction whole with
  | nil =>
    cases rest with
    | nil => rfl
    | cons c rest =>
      obtain rfl := hrest c rfl
      simp [digitRun]
  | cons c whole ih =>
    obtain ⟨hc, hwhole⟩ := List.forall_mem_cons.1 hwhole
    have hne : c ≠ '_' := by
      rintro rfl
      exact absurd hc (by decide)
    simp [digitRun, hc, hne, ih hwhole]

theorem leadingDigits_append (hwhole : ∀ c ∈ whole, c.isDigit = true)
    (hrest : ∀ c ∈ rest.head?, c = '.') : leadingDigits (whole ++ rest) = (whole, rest) := by
  have hrun := digitRun_append hwhole hrest
  unfold leadingDigits
  split
  · rename_i t ht
    -- an underscore is no digit and no dot
    cases whole with
    | nil => exact absurd (hrest '_' (by rw [List.nil_append] at ht; rw [ht]; rfl)) (by decide)
    | cons c whole =>
      obtain rfl : c = '_' := (List.cons.inj ht).1
      exact absurd (hwhole '_' List.mem_cons_self) (by decide)
  · exact hrun

/-- Digits with a point among them, or none. -/
theorem magnitude?_digits (hwhole : ∀ c ∈ whole, c.isDigit = true)
    (hfraction : ∀ c ∈ fraction, c.isDigit = true)
    (hrest : rest = '.' :: fraction ∨ rest = [] ∧ fraction = []) :
    magnitude? (whole ++ rest) = if whole ++ fraction = [] then none
      else some (Decimal.ofParts whole fraction).toFloat := by
  have hdot : ∀ c ∈ rest.head?, c = '.' := by
    rcases hrest with rfl | ⟨rfl, -⟩ <;> simp
  have hend : leadingDigits fraction = (fraction, []) := by
    have hnone : ∀ c ∈ ([] : List Char).head?, c = '.' := by simp
    have h := leadingDigits_append hfraction hnone
    rwa [List.append_nil] at h
  have hclamp : clampExponent (whole.length + fraction.length) (-fraction.length + 0) =
      -fraction.length := by
    unfold clampExponent
    omega
  have hboth : (whole.isEmpty && fraction.isEmpty) = true ↔ whole ++ fraction = [] := by
    rw [Bool.and_eq_true, List.isEmpty_iff, List.isEmpty_iff, List.append_eq_nil_iff]
  unfold magnitude?
  rw [leadingDigits_append hwhole hdot]
  rcases hrest with rfl | ⟨rfl, rfl⟩
  · simp only [hend, hboth, exponent?, Option.map_some, Decimal.ofParts, hclamp]
  · simp only [hboth, exponent?, Option.map_some, Decimal.ofParts, hclamp]

/-- The characters that numerals are made of. -/
def characters : List Char := ['.', '0', '1', '2', '3', '4', '5', '6', '7', '8', '9']

theorem mem_characters (hc : Text.isNumeral c = true) : c ∈ characters := by
  rw [Text.isNumeral, Bool.or_eq_true, beq_iff_eq] at hc
  rcases hc with hc | rfl
  · simp only [Char.isDigit, ge_iff_le, Bool.and_eq_true, decide_eq_true_eq] at hc
    have hrange : 48 ≤ c.toNat ∧ c.toNat ≤ 57 := hc
    rw [← Char.ofNat_toNat c]
    generalize c.toNat = n at hrange
    obtain ⟨hlow, hhigh⟩ := hrange
    interval_cases n <;> decide
  · decide

theorem forall_of_characters {p : Char → Bool} (h : characters.all p = true)
    (ht : ∀ c ∈ t, Text.isNumeral c = true) : ∀ c ∈ t, p c = true := fun c hc =>
  List.all_eq_true.1 h c (mem_characters (ht c hc))

/-- Nothing about a numeral has to be put into plain form. -/
theorem plain_ofList (ht : ∀ c ∈ t, Text.isNumeral c = true) : plain (String.ofList t) = t := by
  have hmargin : ∀ c ∈ t, isMargin c = false := by
    simpa using forall_of_characters (p := fun c => !isMargin c) (by decide) ht
  have hdigit : ∀ c ∈ t, Text.asciiDigit c = c := by
    simpa using forall_of_characters (p := fun c => Text.asciiDigit c == c) (by decide) ht
  have hdrop {s : List Char} (hs : ∀ c ∈ s, isMargin c = false) : s.dropWhile isMargin = s := by
    cases s with
    | nil => rfl
    | cons c s => rw [List.dropWhile_cons_of_neg (by simp [hs c List.mem_cons_self])]
  have hreverse : ∀ c ∈ t.reverse, isMargin c = false := fun c hc =>
    hmargin c (List.mem_reverse.1 hc)
  rw [plain, String.toList_ofList, trimMargins, hdrop hmargin, hdrop hreverse, List.reverse_reverse,
    List.map_congr_left hdigit, List.map_id']

/-- A numeral is not the name of a double. -/
theorem ofList_ne (ht : ∀ c ∈ t, Text.isNumeral c = true) {name : String}
    (hname : name.toList.any (fun c => !Text.isNumeral c) = true) : String.ofList t ≠ name := by
  rintro rfl
  rw [String.toList_ofList] at hname
  obtain ⟨c, hc, hnot⟩ := List.any_eq_true.1 hname
  rw [ht c hc] at hnot
  cases hnot

theorem sign_eq (ht : ∀ c ∈ t, Text.isNumeral c = true) : sign t = (false, t) := by
  unfold sign
  split
  · exact absurd (ht '-' List.mem_cons_self) (by decide)
  · exact absurd (ht '+' List.mem_cons_self) (by decide)
  · rfl

theorem ofText?_ofList (ht : ∀ c ∈ t, Text.isNumeral c = true) :
    ofText? (String.ofList t) = magnitude? t := by
  have hlower : ∀ c ∈ t, c.toLower = c := by
    simpa using forall_of_characters (p := fun c => c.toLower == c) (by decide) ht
  have hinf : ¬ (String.ofList t = "inf" ∨ String.ofList t = "infinity") :=
    not_or.2 ⟨ofList_ne ht (by decide), ofList_ne ht (by decide)⟩
  unfold ofText?
  rw [plain_ofList ht, sign_eq ht]
  simp only [List.map_congr_left hlower, List.map_id']
  rw [if_neg hinf, if_neg (ofList_ne ht (by decide))]
  exact congrFun Option.map_id _

/-! ## The walk along a numeral -/

/-- Walks along digits and dots and keeps them, but for the dots after another one; `dotted` tells
whether there was a dot before. Gives what was kept and the place where the walk ends. -/
def walk (dotted : Bool) (kept : List Char) :
    (rest : List Char) → (position : Nat) → List Char × Cursor
  | [], position => (kept, ⟨[], position⟩)
  | c :: s, position =>
    if Text.isNumeral c then
      if dotted && c == '.' then walk dotted kept s (position + 1)
      else walk (dotted || c == '.') (kept ++ [c]) s (position + 1)
    else (kept, ⟨c :: s, position⟩)

/-- What is kept of the numeral at a cursor, and the cursor behind it. A dot in front is not kept,
but is a dot before all others. -/
def collect (c : Cursor) : List Char × Cursor :=
  if c.peek 0 = some '.' then walk true [] c.advance.rest c.advance.position
  else walk false [] c.rest c.position

/-- Reads a number in two steps: collects it on a walk, and reads what was kept as a number in the
wider notation. -/
def read : Reader Float := fun c =>
  let (kept, next) := collect c
  match ofText? (String.ofList kept) with
  | some x => (.ok x, next)
  | none => (.error (.invalidNumber c.position), next)

theorem walk_stop (dotted : Bool) (kept : List Char)
    (hr : ∀ c ∈ rest.head?, Text.isNumeral c = false) (position : Nat) :
    walk dotted kept rest position = (kept, ⟨rest, position⟩) := by
  cases rest with
  | nil => rfl
  | cons c rest => simp [walk, hr c rfl]

/-- Digits are kept. -/
theorem walk_digits (dotted : Bool) (kept : List Char) (hwhole : ∀ c ∈ whole, c.isDigit = true)
    (s : List Char) (position : Nat) :
    walk dotted kept (whole ++ s) position =
      walk dotted (kept ++ whole) s (position + whole.length) := by
  induction whole generalizing kept position with
  | nil => simp
  | cons c whole ih =>
    obtain ⟨hc, hwhole⟩ := List.forall_mem_cons.1 hwhole
    have hdot : (c == '.') = false := beq_false_of_ne (ne_dot_of_isDigit hc)
    rw [List.cons_append, walk, if_pos (isNumeral_of_isDigit hc), hdot, Bool.and_false, Bool.or_false,
      if_neg Bool.false_ne_true, ih _ hwhole, List.append_assoc, List.length_cons, Nat.add_assoc,
      Nat.add_comm 1]
    rfl

/-- The first dot is kept. -/
theorem walk_dot (kept s : List Char) (position : Nat) :
    walk false kept ('.' :: s) position = walk true (kept ++ ['.']) s (position + 1) := rfl

/-- Once there was a dot, only digits are kept. -/
theorem walk_dotted (kept : List Char) (ht : ∀ c ∈ t, Text.isNumeral c = true) (s : List Char)
    (position : Nat) :
    walk true kept (t ++ s) position =
      walk true (kept ++ t.filter (· != '.')) s (position + t.length) := by
  induction t generalizing kept position with
  | nil => simp
  | cons c t ih =>
    obtain ⟨hc, ht⟩ := List.forall_mem_cons.1 ht
    rw [List.cons_append, walk, if_pos hc, Bool.true_and, Bool.true_or, List.length_cons,
      ← Nat.add_assoc, Nat.add_right_comm]
    by_cases hdot : c = '.'
    · rw [if_pos (beq_iff_eq.2 hdot), ih _ ht, List.filter_cons_of_neg (by simp [hdot])]
    · rw [if_neg (by simpa using hdot), ih _ ht, List.filter_cons_of_pos (by simpa using hdot),
        List.append_assoc]
      rfl

/-- **What is kept of a numeral is its parts, and the point between them** if it has one. -/
theorem collect_append (hs : ∀ c ∈ s, Text.isNumeral c = true)
    (hr : ∀ c ∈ rest.head?, Text.isNumeral c = false) (position : Nat) :
    ∃ behind, (behind = '.' :: (numeralParts s).2 ∨ behind = [] ∧ (numeralParts s).2 = []) ∧
      collect ⟨s ++ rest, position⟩ =
        ((numeralParts s).1 ++ behind, ⟨rest, position + s.length⟩) := by
  by_cases hhead : s.head? = some '.'
  · obtain ⟨t, rfl⟩ := List.head?_eq_some_iff.1 hhead
    have ht : ∀ c ∈ t, Text.isNumeral c = true := fun c hc => hs c (List.mem_cons_of_mem _ hc)
    refine ⟨[], .inr ⟨rfl, rfl⟩, ?_⟩
    show walk true [] (t ++ rest) (position + 1) = _
    rw [walk_dotted [] ht, walk_stop _ _ hr, List.length_cons, Nat.add_assoc, Nat.add_comm 1]
    simp [numeralParts]
  · have hpeek : ¬ (s ++ rest)[0]? = some '.' := by
      cases s with
      | nil =>
        intro h
        rw [List.nil_append, ← List.head?_eq_getElem?] at h
        exact absurd (hr '.' h) (by decide)
      | cons c s => exact hhead
    have hcollect : collect ⟨s ++ rest, position⟩ = walk false [] (s ++ rest) position :=
      if_neg hpeek
    obtain ⟨whole, d, rfl, hwhole, hdot, -, hparts⟩ := exists_point hs hhead
    rw [hcollect, hparts]
    cases d with
    | nil =>
      refine ⟨[], .inr ⟨rfl, rfl⟩, ?_⟩
      rw [List.append_nil, walk_digits _ _ hwhole, walk_stop _ _ hr]
      simp
    | cons c t =>
      obtain rfl : c = '.' := hdot c rfl
      have ht : ∀ c ∈ t, Text.isNumeral c = true := fun c hc =>
        hs c (List.mem_append_right _ (List.mem_cons_of_mem _ hc))
      refine ⟨'.' :: t.filter (· != '.'), .inl rfl, ?_⟩
      rw [List.append_assoc, walk_digits _ _ hwhole, List.cons_append, walk_dot,
        walk_dotted _ ht, walk_stop _ _ hr]
      simp [Nat.add_assoc, Nat.add_comm 1]

/-- What is kept is read as the number that the numeral is. -/
theorem ofText?_kept {behind : List Char} (hs : ∀ c ∈ s, Text.isNumeral c = true)
    (hbehind : behind = '.' :: (numeralParts s).2 ∨ behind = [] ∧ (numeralParts s).2 = []) :
    ofText? (String.ofList ((numeralParts s).1 ++ behind)) = ofNumeral? s := by
  have hdigits : ∀ c ∈ (numeralParts s).1 ++ (numeralParts s).2, c.isDigit = true := by
    rw [(parts_eq hs).1]
    exact fun c hc => (List.mem_filter.1 hc).2
  obtain ⟨hwhole, hfraction⟩ := List.forall_mem_append.1 hdigits
  have hnumeral : ∀ c ∈ (numeralParts s).1 ++ behind, Text.isNumeral c = true := by
    refine List.forall_mem_append.2 ⟨fun c hc => isNumeral_of_isDigit (hwhole c hc), ?_⟩
    rcases hbehind with rfl | ⟨rfl, -⟩
    · exact List.forall_mem_cons.2 ⟨rfl, fun c hc => isNumeral_of_isDigit (hfraction c hc)⟩
    · simp
  rw [ofText?_ofList hnumeral, magnitude?_digits hwhole hfraction hbehind, ofNumeral?_eq]

theorem isNumeral_run (c : Cursor) : ∀ d ∈ c.run Text.isNumeral, Text.isNumeral d = true :=
  List.all_eq_true.1 List.all_takeWhile

theorem readNumber_fst (c : Cursor) : (Cursor.readNumber c).1 =
    (ofNumeral? (c.run Text.isNumeral)).elim (.error (.invalidNumber c.position)) .ok := by
  simp only [Cursor.readNumber]
  cases ofNumeral? (c.run Text.isNumeral) <;> rfl

theorem collect_run (c : Cursor) : ∃ behind,
    (behind = '.' :: (numeralParts (c.run Text.isNumeral)).2 ∨
      behind = [] ∧ (numeralParts (c.run Text.isNumeral)).2 = []) ∧
    collect c = ((numeralParts (c.run Text.isNumeral)).1 ++ behind,
      c.skip (c.run Text.isNumeral).length) := by
  obtain ⟨rest, position⟩ := c
  obtain ⟨s, t, rfl, hs, ht⟩ := Parser.exists_run Text.isNumeral rest
  have hrun : Cursor.run ⟨s ++ t, position⟩ Text.isNumeral = s :=
    Parser.takeWhile_append_stop hs ht
  have hskip : Cursor.skip ⟨s ++ t, position⟩ s.length = ⟨t, position + s.length⟩ := by
    rw [Cursor.skip, List.drop_left]
  rw [hrun, hskip]
  exact collect_append hs ht position

example : collect (Cursor.start "1.2.5;") = (['1', '.', '2', '5'], ⟨[';'], 5⟩) := rfl

/-- **A number is read by the walk.** -/
theorem readNumber_eq_read (c : Cursor) : Cursor.readNumber c = read c := by
  obtain ⟨behind, hbehind, hcollect⟩ := collect_run c
  have hkept := ofText?_kept (isNumeral_run c) hbehind
  cases hx : ofNumeral? (c.run Text.isNumeral) <;>
    simp only [Cursor.readNumber, read, hcollect, hkept, hx]

/-! ## More dots -/

/-- Behind a dot, dots make no difference to the parts. -/
theorem numeralParts_append {u v w : List Char} (hu : '.' ∈ u)
    (h : w.filter (· != '.') = v.filter (· != '.')) :
    numeralParts (u ++ w) = numeralParts (u ++ v) := by
  obtain ⟨a, b, rfl, ha⟩ := List.eq_append_cons_of_mem hu
  have hne : ∀ c ∈ a, (c != '.') = true := by
    intro c hc
    rw [bne_iff_ne]
    rintro rfl
    exact ha hc
  cases a with
  | nil => simp [numeralParts, h]
  | cons c a =>
    have hhead (x : List Char) : (c :: a ++ '.' :: b ++ x).head? ≠ some '.' := by
      simpa using hne c List.mem_cons_self
    have hsplit (x : List Char) : numeralParts (c :: a ++ '.' :: b ++ x) =
        (c :: a, b.filter (· != '.') ++ x.filter (· != '.')) := by
      rw [numeralParts_of_head (hhead x), List.append_assoc, List.takeWhile_append_of_pos hne,
        List.dropWhile_append_of_pos hne]
      simp
    rw [hsplit, hsplit, h]

/-- Dots do not end a numeral. -/
theorem filter_takeWhile (s : List Char) :
    (s.takeWhile Text.isNumeral).filter (· != '.') =
      (s.filter (· != '.')).takeWhile Text.isNumeral := by
  induction s with
  | nil => rfl
  | cons c s ih =>
    by_cases hdot : c = '.'
    · have hc : Text.isNumeral '.' = true := rfl
      simp [hdot, hc, ih]
    · by_cases hc : Text.isNumeral c = true <;> simp [hdot, hc, ih]

theorem readNumber_more_dots {u v w : List Char} (hnumeral : ∀ d ∈ u, Text.isNumeral d = true)
    (hu : '.' ∈ u) (h : w.filter (· != '.') = v.filter (· != '.')) (position : Nat) :
    (Cursor.readNumber ⟨u ++ w, position⟩).1 = (Cursor.readNumber ⟨u ++ v, position⟩).1 := by
  have hrun (x : List Char) : Cursor.run ⟨u ++ x, position⟩ Text.isNumeral =
      u ++ x.takeWhile Text.isNumeral := List.takeWhile_append_of_pos hnumeral
  have hbehind : (w.takeWhile Text.isNumeral).filter (· != '.') =
      (v.takeWhile Text.isNumeral).filter (· != '.') := by
    rw [filter_takeWhile, filter_takeWhile, h]
  rw [readNumber_fst, readNumber_fst, hrun, hrun, ofNumeral?_eq, ofNumeral?_eq,
    numeralParts_append hu hbehind]

end

end Numeral

namespace Cursor

/-- **A number is read from the longest run of digits and dots**, on a walk that keeps the digits and
the first dot behind one. It fails, for the place where it began, if and only if there is no digit;
else it gives the double nearest to the number that the digits stand for, with the first dot for a
point unless it is in front of them. Behind a dot, further dots make no difference. -/
theorem readNumber_numeral (c : Cursor) :
    readNumber c = Numeral.read c ∧
      (readNumber c).2 = c.skip (c.run Text.isNumeral).length ∧
      (∀ e, (readNumber c).1 = .error e ↔
        (∀ d ∈ c.run Text.isNumeral, d.isDigit = false) ∧ e = .invalidNumber c.position) ∧
      (∀ x, (readNumber c).1 = .ok x ↔
        (∃ d ∈ c.run Text.isNumeral, d.isDigit = true) ∧
          IsReading (Numeral.value (c.run Text.isNumeral)) x) ∧
      ∀ u v w, c.rest = u ++ v → (∀ d ∈ u, Text.isNumeral d = true) → '.' ∈ u →
        w.filter (· != '.') = v.filter (· != '.') →
          (readNumber ⟨u ++ w, c.position⟩).1 = (readNumber c).1 := by
  have hs := Numeral.isNumeral_run c
  have hfst := Numeral.readNumber_fst c
  have hnone := Numeral.ofNumeral?_eq_none_iff hs
  refine ⟨Numeral.readNumber_eq_read c, readNumber_snd c, fun e => ?_, fun x => ?_,
    fun u v w hc hnumeral hu h => ?_⟩
  · rw [hfst, ← hnone]
    cases ofNumeral? (c.run Text.isNumeral) with
    | none => simp [eq_comm]
    | some x => simp
  · have hsome : (∃ d ∈ c.run Text.isNumeral, d.isDigit = true) ↔
        ofNumeral? (c.run Text.isNumeral) ≠ none := by
      rw [Ne, hnone]
      simp
    rw [hfst, hsome]
    cases hx : ofNumeral? (c.run Text.isNumeral) with
    | none => simp
    | some y =>
      have hreading := Numeral.isReading_of_ofNumeral? hs hx
      constructor
      · rintro ⟨⟩
        exact ⟨Option.some_ne_none _, hreading⟩
      · rintro ⟨-, hx'⟩
        rw [hx'.unique hreading]
        rfl
  · obtain ⟨rest, position⟩ := c
    obtain rfl : rest = u ++ v := hc
    exact Numeral.readNumber_more_dots hnumeral hu h position

/-- Three dots, of which the first one counts, and more of them among and behind the digits. -/
theorem readNumber_numeral_dots : ∃ x,
    readNumber (start "1.2.3+4") = (.ok x, ⟨['+', '4'], 5⟩) ∧ IsReading (123 / 100) x ∧
      (readNumber (start "1..2.3.+.4")).1 = .ok x := by
  have hrun : (start "1.2.3+4").run Text.isNumeral = ['1', '.', '2', '.', '3'] := rfl
  have hvalue : Numeral.value ['1', '.', '2', '.', '3'] = 123 / 100 := by
    have hplaces : Numeral.places ['1', '.', '2', '.', '3'] = 2 := rfl
    have hdigits : ofDigits (['1', '.', '2', '.', '3'].filter Char.isDigit) = 123 := rfl
    rw [Numeral.value, hplaces, hdigits]
    norm_num
  obtain ⟨-, hnext, herror, hok, hdots⟩ := readNumber_numeral (start "1.2.3+4")
  rw [hrun] at hnext herror hok
  rw [hvalue] at hok
  cases hx : (readNumber (start "1.2.3+4")).1 with
  | error e =>
    have hnone := ((herror e).1 hx).1 '1' List.mem_cons_self
    cases hnone
  | ok x =>
    refine ⟨x, Prod.ext hx hnext, ((hok x).1 hx).2, ?_⟩
    rw [← hx]
    exact hdots ['1', '.'] "2.3+4".toList ".2.3.+.4".toList rfl (by simp [Text.isNumeral])
      (by simp) rfl

end Cursor

end Formulary
