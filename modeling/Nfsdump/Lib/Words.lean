/-
  Words — a text cut at its blanks.

  The words of a text are the runs between blanks; several blanks cut once.

  Proved, for any alphabet and any blanks:
  - `words_append`: a text that is cut at a blank has the words of its two parts;
  - `words_word`: a run without blanks is one word;
  - `mem_words`: a word is not empty and has no blanks;
  - `Yields.append`: texts that end in blanks have the words of each.
-/

import Mathlib.Tactic

namespace Words

/-- Texts are compared by their characters wherever one is looked for. -/
instance lawfulBEq_text : LawfulBEq (List Char) := inferInstance

variable {α : Type} {blank : α → Bool}

/-- The word so far, if there is one. -/
def closed : List α → List (List α)
  | [] => []
  | w => [w]

/-- `w` is the word so far. -/
def wordsFrom (blank : α → Bool) (w : List α) : List α → List (List α)
  | [] => closed w
  | c :: cs => if blank c then closed w ++ wordsFrom blank [] cs else wordsFrom blank (w ++ [c]) cs

def words (blank : α → Bool) (cs : List α) : List (List α) := wordsFrom blank [] cs

theorem closed_of_ne {w : List α} (h : w ≠ []) : closed w = [w] := by
  cases w with
  | nil => exact absurd rfl h
  | cons c w => rfl

@[simp] theorem words_nil : words blank [] = [] := rfl

theorem words_blank {b : α} (hb : blank b) (cs : List α) : words blank (b :: cs) = words blank cs := by
  rw [words, wordsFrom, if_pos hb]
  rfl

theorem wordsFrom_append {b : α} (hb : blank b) (xs ys : List α) : ∀ w,
    wordsFrom blank w (xs ++ b :: ys) = wordsFrom blank w xs ++ words blank ys := by
  induction xs with
  | nil => intro w; simp only [List.nil_append, wordsFrom, hb, if_true]; rfl
  | cons c xs ih =>
    intro w
    rw [List.cons_append, wordsFrom, wordsFrom]
    by_cases hc : blank c
    · rw [if_pos hc, if_pos hc, ih, List.append_assoc]
    · rw [if_neg hc, if_neg hc, ih]

theorem words_append {b : α} (hb : blank b) (xs ys : List α) :
    words blank (xs ++ b :: ys) = words blank xs ++ words blank ys := wordsFrom_append hb xs ys []

theorem wordsFrom_word {cs : List α} (h : ∀ c ∈ cs, blank c = false) : ∀ w, wordsFrom blank w cs = closed (w ++ cs) := by
  induction cs with
  | nil => intro w; rw [List.append_nil, wordsFrom]
  | cons c cs ih =>
    intro w
    rw [List.forall_mem_cons] at h
    rw [wordsFrom, h.1, if_neg Bool.false_ne_true, ih h.2, List.append_assoc]
    rfl

theorem words_word {cs : List α} (h : ∀ c ∈ cs, blank c = false) (hne : cs ≠ []) : words blank cs = [cs] := by
  rw [words, wordsFrom_word h, List.nil_append, closed_of_ne hne]

theorem words_blanks {bs : List α} (h : ∀ b ∈ bs, blank b) (cs : List α) : words blank (bs ++ cs) = words blank cs := by
  induction bs with
  | nil => rfl
  | cons b bs ih =>
    rw [List.forall_mem_cons] at h
    rw [List.cons_append, words_blank h.1, ih h.2]

theorem mem_wordsFrom {x : List α} (cs : List α) : ∀ w, (∀ c ∈ w, blank c = false) → x ∈ wordsFrom blank w cs →
    x ≠ [] ∧ ∀ c ∈ x, blank c = false := by
  have whole : ∀ w : List α, (∀ c ∈ w, blank c = false) → x ∈ closed w → x ≠ [] ∧ ∀ c ∈ x, blank c = false := by
    intro w hw hx
    cases w with
    | nil => exact absurd hx List.not_mem_nil
    | cons c w =>
      rw [List.mem_singleton.mp hx]
      exact ⟨List.cons_ne_nil c w, hw⟩
  induction cs with
  | nil => exact whole
  | cons c cs ih =>
    intro w hw hx
    rw [wordsFrom] at hx
    by_cases hc : blank c
    · rw [if_pos hc] at hx
      rcases List.mem_append.mp hx with hx | hx
      · exact whole w hw hx
      · exact ih [] (fun d hd => absurd hd List.not_mem_nil) hx
    · rw [if_neg hc] at hx
      refine ih (w ++ [c]) (fun d hd => ?_) hx
      rcases List.mem_append.mp hd with hd | hd
      · exact hw d hd
      · rw [List.mem_singleton.mp hd]
        exact Bool.eq_false_iff.mpr hc

theorem mem_words {x cs : List α} (h : x ∈ words blank cs) : x ≠ [] ∧ ∀ c ∈ x, blank c = false :=
  mem_wordsFrom cs [] (fun _ hc => absurd hc List.not_mem_nil) h

/-! ## Closed texts -/

/-- The words of a text that no text behind it runs into. -/
def Yields (blank : α → Bool) (cs : List α) (ws : List (List α)) : Prop :=
  ∀ rest, words blank (cs ++ rest) = ws ++ words blank rest

variable {cs ds : List α} {ws vs : List (List α)}

theorem Yields.words_eq (h : Yields blank cs ws) : words blank cs = ws := by
  have := h []
  rwa [List.append_nil, words_nil, List.append_nil] at this

theorem yields_nil : Yields blank [] [] := fun _ => rfl

theorem Yields.append (h : Yields blank cs ws) (h' : Yields blank ds vs) : Yields blank (cs ++ ds) (ws ++ vs) := fun rest => by
  rw [List.append_assoc, h, h', List.append_assoc]

theorem yields_blanks (h : ∀ b ∈ cs, blank b) : Yields blank cs [] := fun rest => words_blanks h rest

theorem yields_word {w bs : List α} (hw : ∀ c ∈ w, blank c = false) (hne : w ≠ []) (hb : ∀ c ∈ bs, blank c) (hbs : bs ≠ []) :
    Yields blank (w ++ bs) [w] := fun rest => by
  cases bs with
  | nil => exact absurd rfl hbs
  | cons b bs =>
    rw [List.forall_mem_cons] at hb
    rw [List.append_assoc, List.cons_append, words_append hb.1, words_word hw hne, words_blanks hb.2]

end Words
