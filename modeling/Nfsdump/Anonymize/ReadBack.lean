/-
  Nfsdump.Anonymize.ReadBack — an anonymized dump is read back as the same records
  (scripts/anonymize.pl, `anonymizeStream`: the fields that are dropped are substituted "so
  that they parse identically").

  The names given have no blanks, whatever was in the texts that have them (`Clean`); so
  what is written for a record splits at the same places again.

  Proved:
  - `records_renamed`: the records of an anonymized file are the records of the file under
    the one naming of all files, in their order, each with its status and its renamed data,
    when each file is the only one of its process;
  - `server_first`: where all records have one server, it is host 30 in all of them, whichever
    process reads the files.
-/

import Nfsdump.Anonymize.OneNaming
import Nfsdump.Anonymize.Subwords

namespace Nfsdump.Anonymize

open Renaming Words
open Decode (isBlank Nonblank nonblank_toDigits nonblank_append)

/-! ## Names have no blanks -/

/-- Every name is a word. -/
def Clean (ν : Kind → Text → Text) : Prop := ∀ kind k, Nonblank (ν kind k)

theorem nonblank_unmapped (kind : Kind) : ∀ t ∈ kind.unmapped, Nonblank t := by cases kind <;> decide +kernel

theorem nonblank_supply (kind : Kind) (i : Nat) : Nonblank (kind.supply i) := by
  have digits : ∀ {b n : Nat}, 1 < b → b ≤ 16 → Nonblank (Nat.toDigits b n) := fun hb hb' => nonblank_toDigits hb hb'
  cases kind with
  | word =>
    refine nonblank_append (fun c hc => ?_) (digits (by decide) (by decide))
    rw [List.eq_of_mem_replicate hc]
    rfl
  | host => exact digits (by decide) (by decide)
  | uid => exact digits (by decide) (by decide)
  | gid => exact digits (by decide) (by decide)
  | fileid => exact digits (by decide) (by decide)

/-- No name, a fixed one or one from the supply. -/
theorem naming_cases (ks : Keys) (kind : Kind) (k : Text) :
    naming ks kind k = [] ∨ naming ks kind k ∈ kind.unmapped ∨ ∃ i, naming ks kind k = kind.supply i := by
  unfold naming
  cases hf : kind.fixed k with
  | some w =>
    obtain ⟨hk, rfl⟩ := Kind.fixed_eq_some.mp hf
    rw [Kind.rename, rename_of_fixed hf, Option.getD_some]
    exact Or.inr (Or.inl hk)
  | none =>
    by_cases hk : k ∈ asked kind.fixed (ofKind ks kind)
    · rw [Kind.rename, rename_of_mem hf hk, Option.getD_some]
      exact Or.inr (Or.inr ⟨_, rfl⟩)
    · rw [Kind.rename, rename_eq_none.mpr ⟨hf, hk⟩]
      exact Or.inl rfl

theorem clean_naming (ks : Keys) : Clean (naming ks) := by
  intro kind k
  rcases naming_cases ks kind k with h | h | ⟨i, h⟩
  · rw [h]
    exact fun c hc => absurd hc List.not_mem_nil
  · exact nonblank_unmapped kind _ h
  · rw [h]
    exact nonblank_supply kind i

variable {ν : Kind → Text → Text} {σ φ : Text → Text} {w t : Text} {p : Split} {l : Text}

theorem digit_nonblank {c : Char} (h : c.isDigit = true) : isBlank c = false := by
  by_contra hb
  rw [Bool.not_eq_false, isBlank, Bool.or_eq_true, Bool.and_eq_true, decide_eq_true_eq, decide_eq_true_eq, decide_eq_true_eq] at hb
  rw [Char.isDigit, Bool.and_eq_true, decide_eq_true_eq, decide_eq_true_eq] at h
  have hlo : 48 ≤ c.toNat := UInt32.le_iff_toNat_le.mp h.1
  rcases hb with rfl | hb
  · exact absurd hlo (by decide)
  · omega

theorem Alnum.nonblank (h : Alnum w) : Nonblank w := by
  intro c hc
  have hal := h c hc
  by_contra hb
  rw [Bool.not_eq_false, isBlank, Bool.or_eq_true, Bool.and_eq_true, decide_eq_true_eq, decide_eq_true_eq, decide_eq_true_eq] at hb
  rcases hb with rfl | hb
  · exact absurd hal (by decide)
  · have control : ∀ n < 14, 9 ≤ n → (Char.ofNat n).isAlphanum = false := by decide
    have hnot := control c.toNat (by omega) (by omega)
    rw [Char.ofNat_toNat, hal] at hnot
    cases hnot

theorem Clean.except (hν : Clean ν) (hφ : ∀ key, Alnum (φ key)) : Clean (exceptFileids ν φ) := by
  intro kind k
  by_cases hk : kind = .fileid
  · subst hk
    exact (hφ k).nonblank
  · rw [exceptFileids, Function.update_of_ne hk]
    exact hν kind k

/-! ### What a path is pasted from -/

/-- What stands in a name for itself. -/
def pieces : List Text :=
  [['.'], ['/'], [','], ['#'], ['~'], [',', 'v'], [',', 't'], saves, cache, pico] ++ (UnmappedSuffixes ++ UnmappedWords)

/-- A property of texts that holds of these pieces and of what is pasted. -/
structure Pasted (P : Text → Prop) : Prop where
  nil : P []
  append : ∀ {s t}, P s → P t → P (s ++ t)
  piece : ∀ t ∈ pieces, P t

variable {P : Text → Prop}

theorem Pasted.join (h : Pasted P) {sep : Char} (hsep : P [sep]) {ts : List Text} (hts : ∀ u ∈ ts, P u) : P (join sep ts) := by
  induction ts with
  | nil => exact h.nil
  | cons t ts ih =>
    rw [List.forall_mem_cons] at hts
    unfold Anonymize.join at ih ⊢
    cases ts with
    | nil =>
      rw [List.intercalate_singleton]
      exact hts.1
    | cons u us =>
      rw [List.intercalate_cons_of_ne_nil (List.cons_ne_nil _ _)]
      exact h.append (h.append hts.1 hsep) (ih hts.2)

theorem Pasted.simpleword (h : Pasted P) (hσ : ∀ k, P (σ k)) (w : Text) : P (renameSIMPLEWORD σ w) := by
  refine h.join (h.piece _ (by simp [pieces])) fun u hu => ?_
  obtain ⟨k, -, rfl⟩ := List.mem_map.mp hu
  exact hσ k

theorem Pasted.suffix (h : Pasted P) (hσ : ∀ k, P (σ k)) (w : Text) : P (renameSuffix σ w) := by
  unfold renameSuffix
  split
  · next hu => exact h.piece w (List.mem_append_right _ (List.mem_append_left _ hu))
  · exact h.simpleword hσ w

theorem peelMagic_mem (w : Text) : (peelMagic w).1 ∈ [saves, cache, pico, []] := by
  unfold peelMagic
  split
  · simp
  split
  · simp
  split
  · simp
  · simp

theorem Pasted.opt (h : Pasted P) (has : Bool) {t : Text} (ht : t ∈ pieces) : P (opt has t) := by
  cases has with
  | true => exact h.piece t ht
  | false => exact h.nil

theorem Pasted.aword (h : Pasted P) {d : Decorations} (hd : d.magic ∈ [saves, cache, pico, []]) : P d.aword := by
  unfold Decorations.aword
  split
  · exact h.nil
  · next hne =>
    refine h.append (h.piece _ ?_) (h.piece _ (by simp [pieces]))
    simp only [List.mem_cons, List.not_mem_nil, or_false] at hd
    rcases hd with hd | hd | hd | hd
    · simp [pieces, hd]
    · simp [pieces, hd]
    · simp [pieces, hd]
    · exact absurd hd hne

theorem Pasted.word (h : Pasted P) (hσ : ∀ k, P (σ k)) (w : Text) : P (renameWORD σ w) := by
  unfold renameWORD
  split
  · next hu => exact h.piece w (List.mem_append_right _ (List.mem_append_right _ hu))
  · have hbody : P (renameBody σ (decorations w).2) := by
      unfold renameBody
      split
      · exact h.append (h.simpleword hσ _) (h.append (s := ['.']) (h.piece _ (by simp [pieces])) (h.suffix hσ _))
      · exact h.simpleword hσ _
    have haword : P (decorations w).1.aword := h.aword (peelMagic_mem w)
    unfold Decorations.paste
    exact h.append (h.opt _ (by simp [pieces])) <| h.append (h.opt _ (by simp [pieces])) <| h.append (h.opt _ (by simp [pieces])) <|
      h.append (h.append haword hbody) <| h.append (h.opt _ (by simp [pieces])) <| h.append (h.opt _ (by simp [pieces])) <|
      h.append (h.opt _ (by simp [pieces])) (h.opt _ (by simp [pieces]))

theorem Pasted.path (h : Pasted P) (hσ : ∀ k, P (σ k)) (path : Text) : P (renamePATH σ path) := by
  refine h.join (h.piece _ (by simp [pieces])) fun u hu => ?_
  obtain ⟨c, -, rfl⟩ := List.mem_map.mp hu
  exact h.word hσ c

theorem pasted_nonblank : Pasted Nonblank where
  nil := fun c hc => absurd hc List.not_mem_nil
  append := nonblank_append
  piece := by decide +kernel

theorem nonblank_path (hσ : ∀ k, Nonblank (σ k)) (path : Text) : Nonblank (renamePATH σ path) := pasted_nonblank.path hσ path

/-! ## Data -/

/-- Every key asked has a name that can be seen. -/
def Named (ν : Kind → Text → Text) (ks : Keys) : Prop := ∀ q ∈ ks, ν q.1 q.2 ≠ []

theorem mem_ofKind {ks : Keys} {q : Kind × Text} (h : q ∈ ks) : q.2 ∈ ofKind ks q.1 :=
  List.mem_map.mpr ⟨q, List.mem_filter.mpr ⟨h, decide_eq_true rfl⟩, rfl⟩

theorem supply_ne_nil (kind : Kind) (i : Nat) : kind.supply i ≠ [] := by
  have digits : ∀ {b n : Nat}, Nat.toDigits b n ≠ [] := Nat.toDigits_ne_nil
  cases kind with
  | word => exact List.append_ne_nil_of_right_ne_nil _ digits
  | host => exact digits
  | uid => exact digits
  | gid => exact digits
  | fileid => exact digits

theorem named_naming (ks : Keys) : Named (naming ks) ks := by
  rintro ⟨kind, k⟩ hq
  unfold naming
  cases hf : kind.fixed k with
  | some w =>
    obtain ⟨hk, rfl⟩ := Kind.fixed_eq_some.mp hf
    rw [Kind.rename, rename_of_fixed hf, Option.getD_some]
    have unmapped : ∀ kind : Kind, ∀ t ∈ kind.unmapped, t ≠ [] := fun kind => by cases kind <;> decide +kernel
    exact unmapped kind _ hk
  | none =>
    rw [Kind.rename, rename_of_mem hf (mem_asked.mpr ⟨mem_ofKind hq, hf⟩), Option.getD_some]
    exact supply_ne_nil kind _

theorem Named.mono {ks more : Keys} (h : Named ν more) (hks : ks ⊆ more) : Named ν ks := fun q hq => h q (hks hq)

theorem nonblank_quote (hw : Nonblank w) : Nonblank (quote w) := by
  have hq : Nonblank ['"'] := by decide
  exact nonblank_append hq (nonblank_append hw hq)

theorem nonblank_value (hν : Clean ν) (name val : Text) : Nonblank (renameValue ν name val) := by
  unfold renameValue
  split
  · exact hν .uid val
  split
  · exact hν .gid val
  split
  · exact hν .fileid val
  · exact nonblank_quote (nonblank_path (hν .word) _)

theorem word_value (hν : Clean ν) {name val : Text} (hn : Named ν (valueKeys name val)) : Word (renameValue ν name val) := by
  refine ⟨?_, nonblank_value hν name val⟩
  unfold valueKeys at hn
  unfold renameValue
  split
  · next h =>
    rw [if_pos h] at hn
    exact hn _ (List.mem_singleton_self _)
  next h =>
  rw [if_neg h] at hn
  split
  · next h =>
    rw [if_pos h] at hn
    exact hn _ (List.mem_singleton_self _)
  next h =>
  rw [if_neg h] at hn
  split
  · next h =>
    rw [if_pos h] at hn
    exact hn _ (List.mem_singleton_self _)
  · exact List.cons_ne_nil _ _

/-- Whatever the names are, the data stay on their line. -/
theorem nonblank_data (hν : Clean ν) (data : List Text) (hd : ∀ w ∈ data, Nonblank w) : ∀ w ∈ renameData ν data, Nonblank w := by
  induction data using dataKeys.induct with
  | case1 label val data ih =>
    rw [List.forall_mem_cons, List.forall_mem_cons] at hd
    rw [renameData, List.forall_mem_cons, List.forall_mem_cons]
    refine ⟨hd.1, ?_, ih hd.2.2⟩
    split
    · exact nonblank_value hν _ _
    · exact hd.2.1
  | case2 label hlabel =>
    rw [renameData, if_pos hlabel, List.forall_mem_cons, List.forall_mem_singleton]
    exact ⟨hd label (List.mem_singleton_self _), nonblank_value hν _ _⟩
  | case3 label hlabel =>
    rw [renameData, if_neg hlabel]
    exact hd
  | case4 => exact fun w hw => absurd hw List.not_mem_nil

/-- The words of the data are words again. -/
theorem words_data (hν : Clean ν) (data : List Text) (hd : ∀ w ∈ data, Word w) (hn : Named ν (dataKeys data)) :
    ∀ w ∈ renameData ν data, Word w := by
  induction data using dataKeys.induct with
  | case1 label val data ih =>
    rw [List.forall_mem_cons, List.forall_mem_cons] at hd
    rw [dataKeys] at hn
    rw [renameData, List.forall_mem_cons, List.forall_mem_cons]
    refine ⟨hd.1, ?_, ih hd.2.2 (hn.mono (List.subset_append_right _ _))⟩
    split
    · next h =>
      rw [if_pos h] at hn
      exact word_value hν (hn.mono (List.subset_append_left _ _))
    · exact hd.2.1
  | case2 label hlabel =>
    rw [dataKeys, if_pos hlabel] at hn
    rw [renameData, if_pos hlabel, List.forall_mem_cons, List.forall_mem_singleton]
    exact ⟨hd label (List.mem_singleton_self _), word_value hν hn⟩
  | case3 label hlabel =>
    rw [renameData, if_neg hlabel]
    exact hd
  | case4 => exact fun w hw => absurd hw List.not_mem_nil

/-! ## A record is read back -/

theorem word_kept (p : Split) : ∀ w ∈ p.kept, Word w := fun _ hw => mem_words hw

theorem word_split (p : Split) : ∀ w ∈ p.data, Word w := by
  intro w hw
  refine word_kept p w ?_
  unfold Split.data at hw
  split at hw
  · exact hw
  · exact List.mem_of_mem_tail hw

theorem word_iaddr (hν : Clean ν) (hw : Nonblank w) : Word (renameIADDR ν w) := by
  refine ⟨List.append_ne_nil_of_right_ne_nil _ (List.cons_ne_nil _ _), nonblank_append (hν .host _) ?_⟩
  have hdot : Nonblank ['.'] := by decide
  refine nonblank_append hdot fun c hc => ?_
  rw [List.getD_eq_getElem?_getD] at hc
  rcases hg : (split '.' w)[1]? with _ | port
  · rw [hg] at hc
    exact absurd hc List.not_mem_nil
  · rw [hg] at hc
    exact hw c (Fields.subset_fields (List.mem_of_getElem? hg) hc)

/-- Words with a blank behind each, and more. -/
theorem dropWhile_word (hw : Word w) (rest : Text) : (w ++ rest).dropWhile isBlank = w ++ rest := by
  rcases w with _ | ⟨c, cs⟩
  · exact absurd rfl hw.1
  · rw [List.cons_append, List.dropWhile_cons, hw.2 c List.mem_cons_self]
    rfl

theorem splitLimit_spelled (ws : List Text) (hws : ∀ w ∈ ws, Word w) (rest : Text) :
    splitLimit (ws.length + 1) ((ws.flatMap (· ++ [' ']) ++ rest).dropWhile isBlank) = ws ++ [rest.dropWhile isBlank] := by
  induction ws with
  | nil => rfl
  | cons w ws ih =>
    rw [List.forall_mem_cons] at hws
    have hline : ((w :: ws).flatMap (· ++ [' ']) ++ rest).dropWhile isBlank = w ++ ' ' :: (ws.flatMap (· ++ [' ']) ++ rest) := by
      rw [List.flatMap_cons, List.append_assoc, List.append_assoc]
      exact dropWhile_word hws.1 _
    have hword : ∀ c ∈ w, (!isBlank c) = true := fun c hc => by rw [hws.1.2 c hc]; rfl
    have hrest : (w ++ ' ' :: (ws.flatMap (· ++ [' ']) ++ rest)).dropWhile (!isBlank ·) = ' ' :: (ws.flatMap (· ++ [' ']) ++ rest) := by
      rw [List.dropWhile_append_of_pos hword]
      rfl
    rw [hline, List.length_cons, splitLimit, hrest, if_neg (List.cons_ne_nil _ _), List.takeWhile_append_of_pos hword]
    show (w ++ []) :: splitLimit (ws.length + 1) ((ws.flatMap (· ++ [' ']) ++ rest).dropWhile isBlank) = _
    rw [ih hws.2, List.append_nil]
    rfl

def trailer (p : Split) : Text := if p.isCall then defaultCallTrailer else defaultRespTrailer

/-- What is written behind the head. -/
def Split.body (ν : Kind → Text → Text) (p : Split) : Text :=
  (if p.isCall then [] else p.status ++ [' ']) ++ join ' ' (renameData ν p.data) ++ ' ' :: trailer p

/-- A record as it is read from what is written for it. -/
def Split.renamed (ν : Kind → Text → Text) (p : Split) : Split :=
  { p with
    src_addr := renameIADDR ν p.src_addr
    des_addr := renameIADDR ν p.des_addr
    rest := (p.body ν).dropWhile isBlank }

theorem words_fields (hν : Clean ν) (h : ∀ w ∈ p.fields, Word w) : ∀ w ∈ (p.renamed ν).fields, Word w := by
  simp only [Split.fields, List.forall_mem_cons] at h
  obtain ⟨htime, hsrc, hdes, hxpt, hproto, hxid, hnum, hname, -⟩ := h
  simp only [Split.fields, Split.renamed, List.forall_mem_cons]
  exact ⟨htime, word_iaddr hν hsrc.2, word_iaddr hν hdes.2, hxpt, hproto, hxid, hnum, hname, by simp⟩

theorem rename_line (ν : Kind → Text → Text) (p : Split) :
    p.rename ν = (p.renamed ν).fields.flatMap (· ++ [' ']) ++ p.body ν ++ ['\n'] := by
  unfold Split.rename Split.print Split.body
  simp only [List.append_assoc]
  rfl

theorem rename_reads_back (hν : Clean ν) (h : ∀ w ∈ p.fields, Word w) : splitLine (p.rename ν).dropLast = some (p.renamed ν) := by
  rw [rename_line, List.dropLast_concat, splitLine_eq_some]
  exact splitLimit_spelled _ (words_fields hν h) _

theorem words_join {ts : List Text} (h : ∀ w ∈ ts, Word w) (rest : Text) :
    words isBlank (join ' ' ts ++ ' ' :: rest) = ts ++ words isBlank rest := by
  induction ts with
  | nil => exact words_blank rfl rest
  | cons t ts ih =>
    rw [List.forall_mem_cons] at h
    cases ts with
    | nil =>
      rw [show join ' ' [t] = t by simp [join], words_append rfl, words_word h.1.2 h.1.1]
    | cons u us =>
      have hjoin : join ' ' (t :: u :: us) = t ++ ' ' :: join ' ' (u :: us) := by
        unfold join
        rw [List.intercalate_cons_of_ne_nil (List.cons_ne_nil _ _), List.append_assoc]
        rfl
      rw [hjoin, List.append_assoc, List.cons_append, words_append rfl, words_word h.1.2 h.1.1, ih h.2]
      rfl

theorem words_dropWhile (t : Text) : words isBlank (t.dropWhile isBlank) = words isBlank t := by
  conv_rhs => rw [← List.takeWhile_append_dropWhile (p := isBlank) (l := t)]
  exact (words_blanks (fun b hb => List.mem_takeWhile_imp hb) _).symm

/-- What stands behind the head of a record as it is read back. -/
theorem words_renamed (hν : Clean ν) (hn : Named ν (dataKeys p.data)) :
    words isBlank (p.renamed ν).rest =
      (if p.isCall then [] else p.kept.take 1) ++ renameData ν p.data ++ words isBlank (trailer p) := by
  have hdata := words_data hν p.data (word_split p) hn
  show words isBlank (List.dropWhile isBlank _) = _
  rw [words_dropWhile, Split.body, List.append_assoc]
  by_cases hc : p.isCall
  · rw [if_pos hc, if_pos hc]
    exact words_join hdata _
  · rw [if_neg hc, if_neg hc, List.append_assoc, List.append_assoc]
    show words isBlank (p.status ++ ' ' :: (join ' ' (renameData ν p.data) ++ ' ' :: trailer p)) = _
    rw [words_append rfl, words_join hdata]
    congr 1
    unfold Split.status
    rw [if_neg hc]
    rcases hk : p.kept with _ | ⟨s, ks⟩
    · rfl
    · have hs := word_kept p s (by rw [hk]; exact List.mem_cons_self)
      exact words_word hs.2 hs.1

/-! ## Files -/

/-- The records of a file. -/
def records (file : Text) : List Split := (readLines file).filterMap recordOf

theorem readLines_line (h : '\n' ∉ t) (rest : Text) : readLines (t ++ '\n' :: rest) = (t ++ ['\n']) :: readLines rest := by
  induction t with
  | nil => rw [List.nil_append, readLines, if_pos rfl, List.nil_append]
  | cons c cs ih =>
    rw [List.mem_cons, not_or] at h
    rw [List.cons_append, readLines, if_neg (Ne.symm h.1), ih h.2]
    rfl

theorem readLines_break (file : Text) : ∀ l ∈ readLines file, '\n' ∉ l.dropLast := by
  induction file using readLines.induct with
  | case1 => exact fun l hl => absurd hl List.not_mem_nil
  | case2 cs ih =>
    rw [readLines, if_pos rfl, List.forall_mem_cons]
    exact ⟨List.not_mem_nil, ih⟩
  | case3 c cs hc hls ih =>
    rw [readLines, if_neg hc, hls, List.forall_mem_singleton]
    exact List.not_mem_nil
  | case4 c cs hc l ls hls ih =>
    rw [readLines, if_neg hc, hls]
    rw [hls, List.forall_mem_cons] at ih
    rw [List.forall_mem_cons]
    refine ⟨fun hmem => ?_, ih.2⟩
    rcases l with _ | ⟨d, ds⟩
    · exact absurd hmem List.not_mem_nil
    · rw [List.dropLast_cons_cons, List.mem_cons] at hmem
      rcases hmem with rfl | hmem
      · exact hc rfl
      · exact ih.1 hmem

theorem recordOf_eq_some : recordOf l = some p ↔ l.head?.any Char.isDigit ∧ splitLine l.dropLast = some p := by
  unfold recordOf
  split
  · next h => simp [h]
  · next h => simp [h]

theorem funnyLine_concat (t : Text) : funnyLine t = "XX Funny line (".toList ++ t ++ [')'] ++ ['\n'] := by
  unfold funnyLine
  simp only [List.append_assoc]
  rfl

theorem splitLine_head {t : Text} {c : Char} (hc : isBlank c = false) (h : splitLine (c :: t) = some p) : p.time.head? = some c := by
  rw [splitLine_eq_some, List.dropWhile_cons, hc, if_neg Bool.false_ne_true, splitLimit] at h
  split at h
  · exact absurd (congrArg List.length h) (by simp [Split.fields])
  · rw [Split.fields, List.cons_append, List.takeWhile_cons, hc] at h
    rw [← (List.cons.inj h).1]
    rfl

/-- A record's line begins with a digit. -/
theorem digit_time (h : recordOf l = some p) : p.time.head?.any Char.isDigit := by
  obtain ⟨hdigit, hsplit⟩ := recordOf_eq_some.mp h
  rcases l with _ | ⟨c, cs⟩
  · exact absurd hdigit Bool.false_ne_true
  rcases cs with _ | ⟨d, ds⟩
  · cases (show (none : Option Split) = some p from hsplit)
  · rw [List.dropLast_cons_cons] at hsplit
    rw [splitLine_head (digit_nonblank hdigit) hsplit]
    exact hdigit

theorem body_break (hν : Clean ν) (p : Split) : '\n' ∉ p.body ν := by
  have hword : ∀ {w}, Nonblank w → '\n' ∉ w := fun hw => nonblank_notMem hw rfl
  have hdata : '\n' ∉ join ' ' (renameData ν p.data) := by
    intro hmem
    rcases mem_intercalate hmem with he | ⟨w, hw, hc⟩
    · exact absurd he (by decide)
    · exact hword (nonblank_data hν p.data (fun u hu => (word_split p u hu).2) w hw) hc
  have htrailer : '\n' ∉ ' ' :: trailer p := by
    unfold trailer
    split <;> decide
  have hstatus : '\n' ∉ (if p.isCall then [] else p.status ++ [' ']) := by
    split
    · exact List.not_mem_nil
    · next hc =>
      rw [List.mem_append, not_or, Split.status, if_neg hc]
      refine ⟨?_, by decide⟩
      rcases hk : p.kept with _ | ⟨s, ks⟩
      · exact List.not_mem_nil
      · exact hword (word_kept p s (by rw [hk]; exact List.mem_cons_self)).2
  rw [Split.body, List.mem_append, List.mem_append, not_or, not_or]
  exact ⟨⟨hstatus, hdata⟩, htrailer⟩

/-- What is written for a record is one line, and is read as the record renamed. -/
theorem recordOf_rename (hν : Clean ν) (h : recordOf l = some p) :
    recordOf (p.rename ν) = some (p.renamed ν) ∧ ∃ u, p.rename ν = u ++ ['\n'] ∧ '\n' ∉ u := by
  have hfields := splitLine_fields (recordOf_eq_some.mp h).2
  refine ⟨recordOf_eq_some.mpr ⟨?_, rename_reads_back hν hfields⟩, _, rename_line ν p, ?_⟩
  · have htime := digit_time h
    rcases hp : p.time with _ | ⟨c, cs⟩
    · rw [hp] at htime
      exact absurd htime Bool.false_ne_true
    · rw [hp] at htime
      unfold Split.rename Split.print
      rw [hp]
      exact htime
  · rw [List.mem_append, not_or]
    refine ⟨fun hmem => ?_, body_break hν p⟩
    obtain ⟨w, hw, hc⟩ := List.mem_flatMap.mp hmem
    rcases List.mem_append.mp hc with hc | hc
    · exact nonblank_notMem (words_fields hν hfields w hw).2 rfl hc
    · exact absurd hc (by decide)

/-- The lines of what is written for the lines of a file are read as its records renamed. -/
theorem records_lines (hν : Clean ν) (ls : List Text) (hls : ∀ l ∈ ls, '\n' ∉ l.dropLast) :
    records (ls.flatMap (renameLine ν)) = (ls.filterMap recordOf).map (Split.renamed ν) := by
  induction ls with
  | nil => rfl
  | cons l ls ih =>
    rw [List.forall_mem_cons] at hls
    have hrest := ih hls.2
    rw [List.flatMap_cons]
    cases hl : recordOf l with
    | none =>
      rw [List.filterMap_cons_none hl, renameLine, hl]
      simp only
      split
      · -- the line that is written for it begins with a letter
        have hbreak : '\n' ∉ "XX Funny line (".toList ++ l.dropLast ++ [')'] := by
          rw [List.mem_append, List.mem_append, not_or, not_or]
          exact ⟨⟨by decide, hls.1⟩, by decide⟩
        rw [funnyLine_concat, List.append_assoc, List.singleton_append, records, readLines_line hbreak, List.filterMap_cons_none]
        · exact hrest
        · rfl
      · exact hrest
    | some p =>
      obtain ⟨hread, u, hu, hbreak⟩ := recordOf_rename hν hl
      rw [List.filterMap_cons_some hl, renameLine, hl, List.map_cons]
      show records (p.rename ν ++ _) = _
      rw [hu, List.append_assoc, List.singleton_append, records, readLines_line hbreak, List.filterMap_cons_some (hu ▸ hread)]
      exact congrArg _ hrest

theorem keys_mem {files : List (Text × Restart)} {f : Text × Restart} (hf : f ∈ files) {p : Split} (hp : p ∈ records f.1) :
    p.keys ⊆ files.flatMap fun g => fileKeys g.1 := by
  obtain ⟨l, hl, hlp⟩ := List.mem_filterMap.mp hp
  intro q hq
  refine List.mem_flatMap.mpr ⟨f, hf, List.mem_flatMap.mpr ⟨l, hl, ?_⟩⟩
  rw [lineKeys, hlp]
  exact hq

/-- The records of the anonymized files are those of the files, renamed by one naming: heads with
    other addresses, the status, and the renamed data in front of a fixed trailer. -/
theorem records_renamed (base : Text) (files : List (Text × Restart)) (hown : ∀ f ∈ files.dropLast, f.2.exit = true) :
    (anonymizeFiles base (Session.first base) files).map records =
        files.map (fun f => (records f.1).map (Split.renamed (namingOf files))) ∧
      ∀ f ∈ files, ∀ p ∈ records f.1, words isBlank (p.renamed (namingOf files)).rest =
        (if p.isCall then [] else p.kept.take 1) ++ renameData (namingOf files) p.data ++ words isBlank (trailer p) := by
  refine ⟨?_, fun f hf p hp => ?_⟩
  · rw [files_own base hown, List.map_map]
    exact List.map_congr_left fun f _ => records_lines (clean_naming _) _ (readLines_break f.1)
  · exact words_renamed (clean_naming _) ((named_naming _).mono (List.Subset.trans (List.subset_append_right _ _) (keys_mem hf hp)))

/-- A reply with the attributes of a file. -/
def getattrReply : Text :=
  "1.000210 0a000002.0801 0a000001.03ff U R3 00000001 01 getattr OK uid 3e8 gid 64 fileid 1f03 status=0 pl=88 con=1 len=112\n".toList

/-- Two processes read the reply, one after the other. -/
theorem records_renamed_sample : (records getattrReply).map Split.keys =
      [[(.host, "0a000002".toList), (.host, "0a000001".toList), (.uid, "3e8".toList), (.gid, "64".toList), (.fileid, "1f03".toList)]] ∧
    (anonymizeFiles [] (Session.first []) [(getattrReply, .empty true), (getattrReply, .empty false)]).map records =
        [(getattrReply, Restart.empty true), (getattrReply, .empty false)].map (fun f => (records f.1).map
          (Split.renamed (namingOf [(getattrReply, .empty true), (getattrReply, .empty false)]))) ∧
      ∀ f ∈ [(getattrReply, Restart.empty true), (getattrReply, .empty false)], ∀ p ∈ records f.1,
        words isBlank (p.renamed (namingOf [(getattrReply, .empty true), (getattrReply, .empty false)])).rest =
          (if p.isCall then [] else p.kept.take 1) ++
            renameData (namingOf [(getattrReply, .empty true), (getattrReply, .empty false)]) p.data ++ words isBlank (trailer p) :=
  ⟨by decide +kernel, records_renamed [] [(getattrReply, .empty true), (getattrReply, .empty false)] (List.forall_mem_singleton.mpr rfl)⟩

/-! ## The server -/

/-- The host that a record says is the server. -/
def Split.server (p : Split) : Text := hostOf (if p.isCall then p.des_addr else p.src_addr)

/-- A name for a host leaves an address in its two parts. -/
theorem split_renameIADDR (hdot : '.' ∉ ν .host (hostOf w)) (hne : ν .host (hostOf w) ≠ []) :
    split '.' (renameIADDR ν w) = ν .host (hostOf w) :: (if portOf w = [] then [] else [portOf w]) := by
  have hport : '.' ∉ portOf w := by
    intro hc
    rw [portOf, List.getD_eq_getElem?_getD] at hc
    rcases hg : (split '.' w)[1]? with _ | port
    · rw [hg] at hc
      exact absurd hc List.not_mem_nil
    · rw [hg] at hc
      exact Fields.mem_fields (List.mem_of_getElem? hg) hc
  unfold renameIADDR
  by_cases hp : portOf w = []
  · rw [if_pos hp, hp]
    show Fields.fields '.' (_ ++ ['.']) = _
    rw [Fields.fields_concat_sep, Fields.fields_of_notMem hdot, if_neg hne]
  · rw [if_neg hp]
    show Fields.fields '.' _ = _
    have hjoin : ν .host (hostOf w) ++ '.' :: portOf w = ['.'].intercalate [ν .host (hostOf w), portOf w] := by simp
    rw [hjoin, Fields.fields_intercalate]
    · simp only [List.forall_mem_cons]
      exact ⟨hdot, hport, by simp⟩
    · exact fun _ => hp

theorem hostOf_renameIADDR (hdot : '.' ∉ ν .host (hostOf w)) (hne : ν .host (hostOf w) ≠ []) :
    hostOf (renameIADDR ν w) = ν .host (hostOf w) := by
  rw [hostOf, split_renameIADDR hdot hne]
  rfl

theorem rename_first (S : Text) (hosts : List Text) :
    Kind.host.rename (asked Kind.host.fixed (S :: hosts)) S = some "30".toList := by
  have hfixed : Kind.host.fixed S = none := if_neg List.not_mem_nil
  have hnone : Kind.host.rename [] S = none := rename_eq_none.mpr ⟨hfixed, List.not_mem_nil⟩
  have hfirst : Kind.host.rename (ask Kind.host.fixed [] S) S = some (Kind.host.supply 0) := by
    rw [ask_of_none hnone]
    exact rename_append_self hnone
  exact rename_foldl_of_some hosts hfirst

/-- Nothing but `S` comes first. -/
def Leads (S : Text) (hosts : List Text) : Prop := ∀ h ∈ hosts.head?, h = S

theorem Leads.append {S : Text} {xs ys : List Text} (hx : Leads S xs) (hy : Leads S ys) : Leads S (xs ++ ys) := by
  cases xs with
  | nil => exact hy
  | cons x xs => exact hx

theorem ofKind_flatMap {γ : Type} (f : γ → Keys) (xs : List γ) (kind : Kind) :
    ofKind (xs.flatMap f) kind = xs.flatMap fun x => ofKind (f x) kind := by
  induction xs with
  | nil => rfl
  | cons x xs ih => rw [List.flatMap_cons, List.flatMap_cons, ofKind_append, ih]

theorem leads_flatMap {γ : Type} {S : Text} {f : γ → List Text} {xs : List γ} (h : ∀ x ∈ xs, Leads S (f x)) : Leads S (xs.flatMap f) := by
  induction xs with
  | nil => exact fun h hh => absurd hh (Option.not_mem_none h)
  | cons x xs ih =>
    rw [List.forall_mem_cons] at h
    rw [List.flatMap_cons]
    exact h.1.append (ih h.2)

/-- Of a record the server's host is asked for first. -/
theorem leads_record (p : Split) : Leads p.server (ofKind p.keys .host) := by
  unfold Split.keys
  rw [ofKind_append]
  unfold addrKeys Split.server
  split <;> exact fun h hh => (Option.some.inj hh).symm

theorem server_mem (p : Split) : (.host, p.server) ∈ p.keys := by
  unfold Split.keys addrKeys Split.server
  split <;> exact List.mem_cons_self

theorem leads_files {files : List (Text × Restart)} {S : Text} (hS : ∀ f ∈ files, ∀ p ∈ records f.1, p.server = S) :
    Leads S (ofKind (files.flatMap fun f => fileKeys f.1) .host) := by
  rw [ofKind_flatMap]
  apply leads_flatMap
  intro f hf
  rw [fileKeys, ofKind_flatMap]
  apply leads_flatMap
  intro l hl
  unfold lineKeys
  cases hp : recordOf l with
  | none => exact fun h hh => absurd hh (Option.not_mem_none h)
  | some p =>
    rw [← hS f hf p (List.mem_filterMap.mpr ⟨l, hl, hp⟩)]
    exact leads_record p

/-- In the dump of one server's traffic the server is the first host to be named. -/
theorem server_first (base : Text) (files : List (Text × Restart)) (S : Text) (hS : ∀ f ∈ files, ∀ p ∈ records f.1, p.server = S) :
    ∀ out ∈ anonymizeFiles base (Session.first base) files, ∀ p ∈ records out, p.server = "30".toList := by
  intro out hout p hp
  obtain ⟨f, hf, φ, hφ, hlines⟩ := mem_anonymizeFiles base hout
  rw [hlines, records_lines (Clean.except (clean_naming _) hφ : Clean (exceptFileids (namingOf files) φ)) _ (readLines_break f.1)] at hp
  obtain ⟨q, hq, rfl⟩ := List.mem_map.mp hp
  have hname : exceptFileids (namingOf files) φ .host S = "30".toList := by
    have hlead := leads_files hS
    have hmem : S ∈ ofKind (files.flatMap fun g => fileKeys g.1) .host := hS f hf q hq ▸ mem_ofKind (keys_mem hf hq (server_mem q))
    rw [exceptFileids, Function.update_of_ne (by decide), namingOf, naming]
    rcases hks : ofKind (files.flatMap fun g => fileKeys g.1) .host with _ | ⟨h, hosts⟩
    · rw [hks] at hmem
      exact absurd hmem List.not_mem_nil
    · rw [hks] at hlead
      rw [hks, hlead h rfl, rename_first, Option.getD_some]
  have hserver : (q.renamed (exceptFileids (namingOf files) φ)).server =
      hostOf (renameIADDR (exceptFileids (namingOf files) φ) (if q.isCall then q.des_addr else q.src_addr)) := by
    unfold Split.server
    show hostOf (if q.isCall then _ else _) = _
    split <;> rfl
  have hhost : hostOf (if q.isCall then q.des_addr else q.src_addr) = S := hS f hf q hq
  rw [hserver, hostOf_renameIADDR]
  · rw [hhost, hname]
  · rw [hhost, hname]
    decide
  · rw [hhost, hname]
    decide

/-- A call and its reply. -/
def nullExchange : Text :=
  "1.000000 0a000001.03ff 0a000002.0801 U C3 00000001 00 null con=1 len=40\n".toList ++
    "1.000210 0a000002.0801 0a000001.03ff U R3 00000001 00 null OK status=0 pl=0 con=1 len=24\n".toList

theorem server_first_sample : (records nullExchange).length = 2 ∧
    ∀ out ∈ anonymizeFiles [] (Session.first []) [(nullExchange, .empty true), (nullExchange, .empty false)], ∀ p ∈ records out,
      p.server = "30".toList :=
  ⟨by decide +kernel, server_first [] [(nullExchange, .empty true), (nullExchange, .empty false)] "0a000002".toList (by decide +kernel)⟩

end Nfsdump.Anonymize
