import Formulary.Expr.Text
import Formulary.Proofs.Source.Lookahead
import Formulary.Proofs.Source.Tokens

/-!
# Text literals are an exact code

A text has one literal, the one that is written for it. **Reading takes back writing, and what can
be read is what is written** (`readText_exact`): behind a literal the cursor stands at what follows
it, unless that is a quote and would be part of it.

Inside a literal quotes stand in pairs, so a row of quotes closes it if their number is odd, and the
last of them is the closing one. Hence a literal without end is known by its rows of quotes, whose
lengths are all even (`QuotesPaired`). The reader takes two quotes at a time, and so does the
induction: two quotes in front lengthen the first row by two, or are a row of their own
(`quotesPaired_pair`).
-/

namespace Formulary

namespace Text

/-! ## Rows of quotes -/

/-- Some `n` quotes stand in a row, with no quote right in front of them and none right behind. -/
def QuoteRun (s : List Char) (n : Nat) : Prop :=
  ∃ u w, s = u ++ (List.replicate n '"' ++ w) ∧ u.getLast? ≠ some '"' ∧ w.head? ≠ some '"'

/-- Each row of quotes is of even length. -/
def QuotesPaired (s : List Char) : Prop := ∀ n, QuoteRun s n → n % 2 = 0

variable {s : List Char} {c : Char} {n : Nat}

theorem quoteRun_cons (hc : c ≠ '"') (hn : n ≠ 0) : QuoteRun (c :: s) n ↔ QuoteRun s n := by
  constructor
  · rintro ⟨_ | ⟨d, u⟩, w, hs, hu, hw⟩
    · -- the row would begin with `c`
      obtain ⟨m, rfl⟩ := Nat.exists_eq_succ_of_ne_zero hn
      exact absurd (List.cons.inj hs).1 hc
    · obtain ⟨rfl, rfl⟩ := List.cons.inj hs
      refine ⟨u, w, rfl, ?_, hw⟩
      intro hlast
      rw [List.getLast?_cons, hlast] at hu
      exact hu rfl
  · rintro ⟨u, w, rfl, hu, hw⟩
    refine ⟨c :: u, w, rfl, ?_, hw⟩
    rw [List.getLast?_cons]
    cases hlast : u.getLast? with
    | none => simpa using hc
    | some d => simpa [hlast] using hu

theorem quotesPaired_nil : QuotesPaired [] := by
  rintro n ⟨u, w, hs, -, -⟩
  have hlength := congrArg List.length hs
  simp only [List.length_nil, List.length_append, List.length_replicate] at hlength
  omega

/-- What is no quote parts two rows. -/
theorem quotesPaired_cons (hc : c ≠ '"') : QuotesPaired (c :: s) ↔ QuotesPaired s := by
  refine forall_congr' fun n => ?_
  by_cases hn : n = 0
  · simp [hn]
  · rw [quoteRun_cons hc hn]

/-- **Two quotes in front** lengthen a row by two, or are one. -/
theorem quotesPaired_pair : QuotesPaired ('"' :: '"' :: s) ↔ QuotesPaired s := by
  constructor
  · rintro h n ⟨_ | ⟨c, u⟩, w, rfl, hu, hw⟩
    · have hlonger := h (n + 2) ⟨[], w, rfl, by simp, hw⟩
      omega
    · refine h n ⟨'"' :: '"' :: c :: u, w, rfl, ?_, hw⟩
      rwa [List.getLast?_cons_cons, List.getLast?_cons_cons]
  · rintro h n ⟨_ | ⟨c, _ | ⟨d, u⟩⟩, w, hs, hu, hw⟩
    · rcases n with _ | _ | n
      · obtain rfl : '"' :: '"' :: s = w := hs
        exact absurd rfl hw
      · obtain rfl : '"' :: s = w := (List.cons.inj hs).2
        exact absurd rfl hw
      · obtain rfl : s = List.replicate n '"' ++ w := (List.cons.inj (List.cons.inj hs).2).2
        have hshorter := h n ⟨[], w, rfl, by simp, hw⟩
        omega
    · obtain ⟨rfl, -⟩ := List.cons.inj hs
      exact absurd rfl hu
    · obtain ⟨rfl, htail⟩ := List.cons.inj hs
      obtain ⟨rfl, rfl⟩ := List.cons.inj htail
      refine h n ⟨u, w, rfl, ?_, hw⟩
      intro hlast
      rw [List.getLast?_cons_cons, List.getLast?_cons, hlast] at hu
      exact hu rfl

/-- A quote by itself is a row of odd length. -/
theorem not_quotesPaired_cons (hs : s.head? ≠ some '"') : ¬ QuotesPaired ('"' :: s) := by
  intro h
  have hodd := h 1 ⟨[], s, rfl, by simp, hs⟩
  omega

/-- **A literal has no end if the quotes in it are paired.** -/
theorem unclosed_iff (s : List Char) : (decode s).2 = none ↔ QuotesPaired s := by
  fun_induction decode s with
  | case1 => exact iff_of_true rfl quotesPaired_nil
  | case2 s t rest hd ih =>
    rw [hd] at ih
    rw [quotesPaired_pair]
    exact ih
  | case3 s hs =>
    refine iff_of_false (Option.some_ne_none s) (not_quotesPaired_cons fun hquote => ?_)
    obtain ⟨s', rfl⟩ := List.head?_eq_some_iff.1 hquote
    exact hs s' rfl rfl
  | case4 c s _ hc t rest hd ih =>
    rw [hd] at ih
    rw [quotesPaired_cons hc]
    exact ih

instance : DecidablePred QuotesPaired := fun s => decidable_of_iff _ (unclosed_iff s)

end Text

/-! ## Literals in a source -/

namespace Expr

theorem toList_toText_text (t : String) :
    (text t).toText.toList = '"' :: (Text.encode t.toList ++ ['"']) := by
  simp [toText, write]

end Expr

namespace Cursor

variable {c d : Cursor} {s : List Char} {t : String} {e : SyntaxError} {i : Nat}

/-- What is read is written in front of the place where reading ends. -/
theorem eq_of_readText_ok (h : readText ⟨'"' :: s, i⟩ = (.ok t, d)) :
    '"' :: s = (Expr.text t).toText.toList ++ d.rest ∧
      d.position = i + (Expr.text t).toText.length := by
  rcases hd : Text.decode s with ⟨u, _ | rest⟩
  · rw [Parser.readText_of_unclosed hd] at h
    cases h
  · rw [Parser.readText_of_decode hd] at h
    obtain ⟨⟨⟩, rfl⟩ := Prod.mk.inj h
    rw [← String.length_toList, Expr.toList_toText_text, String.toList_ofList]
    refine ⟨?_, ?_⟩
    · simp [Text.eq_encode_of_decode hd]
    · simp only [List.length_cons, List.length_append, List.length_nil, Text.length_encode]
      omega

/-- Reading fails at the end of what is left, all of which is inside of the literal. -/
theorem eq_of_readText_error (h : readText ⟨'"' :: s, i⟩ = (.error e, d)) :
    ∃ inside : String, s = Text.encode inside.toList ∧ e = .unclosedText inside i ∧
      d = ⟨[], i + ('"' :: s).length⟩ := by
  rcases hd : Text.decode s with ⟨u, _ | rest⟩
  · rw [Parser.readText_of_unclosed hd] at h
    obtain ⟨⟨⟩, rfl⟩ := Prod.mk.inj h
    have hs := Text.eq_encode_of_unclosed hd
    refine ⟨String.ofList u, by rw [String.toList_ofList, hs], rfl, ?_⟩
    rw [List.length_cons, hs, Text.length_encode, Nat.add_assoc, Nat.add_comm 1]
  · rw [Parser.readText_of_decode hd] at h
    cases h

theorem readText_fails_iff :
    (∃ e d, readText ⟨'"' :: s, i⟩ = (.error e, d)) ↔ Text.QuotesPaired s := by
  rw [← Text.unclosed_iff]
  rcases hd : Text.decode s with ⟨u, _ | rest⟩
  · rw [Parser.readText_of_unclosed hd]
    exact iff_of_true ⟨_, _, rfl⟩ rfl
  · rw [Parser.readText_of_decode hd]
    refine iff_of_false ?_ (Option.some_ne_none rest)
    rintro ⟨e, d, h⟩
    cases h

/-- **Text literals are an exact code.** A literal is read as the text it was written for, up to
what follows it; whatever is read from a quote on is the literal of the text that it is read as; and
reading fails, at the end of the source and for the quote where it began, if and only if each row of
quotes behind that one is of even length. -/
theorem readText_exact :
    (∀ (t : String) (rest : List Char) (i : Nat), rest.head? ≠ some '"' →
      readText ⟨(Expr.text t).toText.toList ++ rest, i⟩ =
        (.ok t, ⟨rest, i + (Expr.text t).toText.length⟩)) ∧
    ∀ (source : String) (i : Nat), source.toList[i]? = some '"' →
      (∀ t c, readText ((start source).skip i) = (.ok t, c) →
        c = (start source).skip c.position ∧
          source.toList.extract i c.position = (Expr.text t).toText.toList) ∧
      ((∃ e c, readText ((start source).skip i) = (.error e, c)) ↔
        Text.QuotesPaired (source.toList.drop (i + 1))) ∧
      ∀ e c, readText ((start source).skip i) = (.error e, c) →
        c = ⟨[], source.length⟩ ∧ e.position? = some i ∧
          ∃ inside : String, e = .unclosedText inside i ∧
            source.toList.drop (i + 1) = Text.encode inside.toList := by
  refine ⟨fun t rest i hrest => ?_, fun source i hquote => ?_⟩
  · rw [← String.length_toList, Expr.toList_toText_text, List.cons_append, List.append_assoc]
    exact Parser.readText_append hrest i
  · obtain ⟨hi, hc⟩ := List.getElem?_eq_some_iff.1 hquote
    have hdrop : source.toList.drop i = '"' :: source.toList.drop (i + 1) := by
      rw [List.drop_eq_getElem_cons hi, hc]
    have hplace : (start source).skip i = ⟨'"' :: source.toList.drop (i + 1), i⟩ := by
      rw [← hdrop, skip, start, Nat.zero_add]
    rw [hplace]
    refine ⟨fun t c h => ?_, readText_fails_iff, fun e c h => ?_⟩
    · obtain ⟨htext, hposition⟩ := eq_of_readText_ok h
      rw [← hdrop] at htext
      rw [← String.length_toList] at hposition
      refine ⟨?_, ?_⟩
      · obtain ⟨rest, position⟩ := c
        obtain rfl : position = _ := hposition
        rw [skip, start, Nat.zero_add, ← List.drop_drop, htext, List.drop_left]
      · rw [hposition, List.extract_eq_take_drop, Nat.add_sub_cancel_left, htext, List.take_left]
    · obtain ⟨inside, hinside, rfl, rfl⟩ := eq_of_readText_error h
      refine ⟨?_, rfl, inside, rfl, hinside⟩
      rw [← hdrop, List.length_drop, String.length_toList, Nat.add_sub_cancel' ?_]
      rw [← String.length_toList]
      exact hi.le

/-- Two quotes in front of the closing one, and two quotes at the end of the source. -/
theorem readText_exact_quotes :
    readText ((start "f(\"a\"\"\";\"b\"\"").skip 2) =
        (.ok "a\"", (start "f(\"a\"\"\";\"b\"\"").skip 7) ∧
      "f(\"a\"\"\";\"b\"\"".toList.extract 2 7 = (Expr.text "a\"").toText.toList ∧
      ∃ e, readText ((start "f(\"a\"\"\";\"b\"\"").skip 8) = (.error e, ⟨[], 12⟩) ∧
        e.position? = some 8 := by
  have hread : readText ((start "f(\"a\"\"\";\"b\"\"").skip 2) =
      (.ok "a\"", (start "f(\"a\"\"\";\"b\"\"").skip 7) :=
    readText_exact.1 "a\"" ";\"b\"\"".toList 2 (by decide)
  obtain ⟨hclosed, -, -⟩ := readText_exact.2 "f(\"a\"\"\";\"b\"\"" 2 rfl
  obtain ⟨-, hfails, herror⟩ := readText_exact.2 "f(\"a\"\"\";\"b\"\"" 8 rfl
  obtain ⟨e, c, he⟩ := hfails.2 (by decide)
  obtain ⟨rfl, hposition, -⟩ := herror e c he
  exact ⟨hread, (hclosed _ _ hread).2, e, he, hposition⟩

end Cursor

end Formulary
