/-!
# Text literals

In a formula a text stands between double quotes, and a double quote inside it is written twice.
`encode` writes the inside of a literal and `decode` reads it, up to the closing quote.

Main statements: `decode_encode`, that reading takes back writing whatever follows, and
`eq_encode_of_decode`, that a literal which can be read is the written form of what was read.
-/

namespace Formulary.Text

/-- The inside of a literal: each double quote twice, all else once. -/
def encode : List Char → List Char
  | [] => []
  | c :: s => if c = '"' then '"' :: '"' :: encode s else c :: encode s

/-- Reads the inside of a literal and its closing quote. What is left after it is `none` if the
literal is never closed. -/
def decode : List Char → List Char × Option (List Char)
  | [] => ([], none)
  | '"' :: '"' :: s => let (t, rest) := decode s; ('"' :: t, rest)
  | c :: s => if c = '"' then ([], some s) else let (t, rest) := decode s; (c :: t, rest)

theorem decode_encode (t : List Char) {rest : List Char} (h : rest.head? ≠ some '"') :
    decode (encode t ++ '"' :: rest) = (t, some rest) := by
  induction t with
  | nil =>
    cases rest with
    | nil => rfl
    | cons c s =>
      have hc : c ≠ '"' := by simpa using h
      simp [encode, decode, hc]
  | cons c t ih => by_cases hc : c = '"' <;> simp [encode, decode, hc, ih]

theorem eq_encode_of_decode {s t rest : List Char} (h : decode s = (t, some rest)) :
    s = encode t ++ '"' :: rest := by
  fun_induction decode s generalizing t with
  | case1 => simp at h
  | case2 s u r hu ih =>
    simp only [Prod.mk.injEq] at h
    obtain ⟨rfl, rfl⟩ := h
    simp [encode, ih hu]
  | case3 s hs =>
    simp only [Prod.mk.injEq, Option.some.injEq] at h
    obtain ⟨rfl, rfl⟩ := h
    simp [encode]
  | case4 c s _ hc u r hu ih =>
    simp only [Prod.mk.injEq] at h
    obtain ⟨rfl, rfl⟩ := h
    simp [encode, hc, ih hu]

/-- A quote behind the closing quote would make it two quotes inside the literal. -/
theorem head?_of_decode {s t rest : List Char} (h : decode s = (t, some rest)) :
    rest.head? ≠ some '"' := by
  fun_induction decode s generalizing t with
  | case1 => simp at h
  | case2 s u r hu ih =>
    simp only [Prod.mk.injEq] at h
    obtain ⟨-, rfl⟩ := h
    exact ih hu
  | case3 s hs =>
    simp only [Prod.mk.injEq, Option.some.injEq] at h
    obtain ⟨-, rfl⟩ := h
    intro hq
    obtain ⟨s', rfl⟩ := List.head?_eq_some_iff.1 hq
    exact hs s' rfl rfl
  | case4 c s _ hc u r hu ih =>
    simp only [Prod.mk.injEq] at h
    obtain ⟨-, rfl⟩ := h
    exact ih hu

theorem eq_encode_of_unclosed {s t : List Char} (h : decode s = (t, none)) : s = encode t := by
  fun_induction decode s generalizing t with
  | case1 =>
    simp only [Prod.mk.injEq] at h
    obtain ⟨rfl, -⟩ := h
    rfl
  | case2 s u r hu ih =>
    simp only [Prod.mk.injEq] at h
    obtain ⟨rfl, rfl⟩ := h
    simp [encode, ← ih hu]
  | case3 s hs => simp at h
  | case4 c s _ hc u r hu ih =>
    simp only [Prod.mk.injEq] at h
    obtain ⟨rfl, rfl⟩ := h
    simp [encode, hc, ← ih hu]

/-- The number of characters that reading the inside of a literal takes, without the closing
quote. -/
def encodedLength (t : List Char) : Nat := t.length + t.count '"'

theorem length_encode (t : List Char) : (encode t).length = encodedLength t := by
  induction t with
  | nil => rfl
  | cons c t ih => by_cases hc : c = '"' <;> simp [encode, encodedLength, hc] at * <;> omega

end Formulary.Text
