/-
  Nfsdump.Anonymize.OneNaming — an anonymized dump is the dump under one naming
  (scripts/anonymize.pl, `anonymizeStream`; nfs-zipper.pl and nfs-anon.pl, `doAnonZip`).

  `lineKeys` are the hosts, ids and subwords of a line, in the order in which they are asked
  for, the server's host first. The keys asked for so far say what the maps hold, the cache of
  addresses included (`Session.Knows`); a line adds its own. What is cached when a line has
  been read tells how it was written (`Follows`): nothing leaves a cache before the process ends.

  Proved (`files_renamed`): the files come out renamed by `naming`, in which the i-th key of
  its kind that is not listed has the i-th name, whichever process reads them. Of file ids
  that is so of every file up to the second that one process reads; behind it each file has
  a naming of its own for them.
-/

import Nfsdump.Anonymize.Stream

namespace Nfsdump.Anonymize

open Renaming Words
open Decode (isBlank Nonblank)

/-! ## The keys of a line -/

abbrev Keys := List (Kind × Text)

def ofKind (ks : Keys) (kind : Kind) : List Text := (ks.filter (·.1 = kind)).map Prod.snd

def wordly (parts : List Text) : Keys := parts.map (Prod.mk .word)

def suffixKeys (suffix : Text) : List Text := if suffix ∈ UnmappedSuffixes then [] else split '.' suffix

def bodyKeys (body : Text) : List Text :=
  match rootSuffix body with
  | some (root, suffix) => split '.' root ++ suffixKeys suffix
  | none => split '.' body

def wordKeys (word : Text) : List Text := if word ∈ UnmappedWords then [] else bodyKeys (decorations word).2

def pathKeys (path : Text) : List Text := (split '/' path).flatMap wordKeys

def valueKeys (name val : Text) : Keys :=
  if name = "euid".toList ∨ name = "uid".toList then [(.uid, val)]
  else if name = "egid".toList ∨ name = "gid".toList then [(.gid, val)]
  else if name = "fileid".toList then [(.fileid, val)]
  else wordly (pathKeys (unquote val))

def dataKeys : List Text → Keys
  | label :: val :: data => (if stripIndex label ∈ Interesting then valueKeys (stripIndex label) val else []) ++ dataKeys data
  | [label] => if stripIndex label ∈ Interesting then valueKeys (stripIndex label) [] else []
  | [] => []

/-- The server's host first. -/
def addrKeys (p : Split) : Keys :=
  if p.isCall then [(.host, hostOf p.des_addr), (.host, hostOf p.src_addr)] else [(.host, hostOf p.src_addr), (.host, hostOf p.des_addr)]

def Split.keys (p : Split) : Keys := addrKeys p ++ dataKeys p.data

/-- The line without its line break, when it is one that is anonymized. -/
def recordOf (l : Text) : Option Split := if l.head?.any Char.isDigit then splitLine l.dropLast else none

def lineKeys (l : Text) : Keys :=
  match recordOf l with
  | some p => p.keys
  | none => []

/-! ## A line under a naming -/

def renameIADDR (ν : Kind → Text → Text) (iaddr : Text) : Text := ν .host (hostOf iaddr) ++ '.' :: portOf iaddr

def renameValue (ν : Kind → Text → Text) (name val : Text) : Text :=
  if name = "euid".toList ∨ name = "uid".toList then ν .uid val
  else if name = "egid".toList ∨ name = "gid".toList then ν .gid val
  else if name = "fileid".toList then ν .fileid val
  else quote (renamePATH (ν .word) (unquote val))

def renameData (ν : Kind → Text → Text) : List Text → List Text
  | label :: val :: data =>
    label :: (if stripIndex label ∈ Interesting then renameValue ν (stripIndex label) val else val) :: renameData ν data
  | [label] => if stripIndex label ∈ Interesting then [label, renameValue ν (stripIndex label) []] else [label]
  | [] => []

def Split.rename (ν : Kind → Text → Text) (p : Split) : Text :=
  p.print (renameIADDR ν p.src_addr) (renameIADDR ν p.des_addr) (renameData ν p.data)

def renameLine (ν : Kind → Text → Text) (l : Text) : Text :=
  match recordOf l with
  | some p => p.rename ν
  | none => if l.head?.any Char.isDigit then funnyLine l.dropLast else []

/-- What the keys are named when they are asked for in this order. -/
def naming (ks : Keys) (kind : Kind) (key : Text) : Text := (kind.rename (asked kind.fixed (ofKind ks kind)) key).getD []

/-! ## The keys say what the maps hold -/

variable {α β : Type} {ks more : Keys} {s s' s'' : State} {ν : Kind → Text → Text} {kind : Kind} {key word val name : Text} {sure : Prop}

theorem ofKind_append (ks more : Keys) (kind : Kind) : ofKind (ks ++ more) kind = ofKind ks kind ++ ofKind more kind := by
  rw [ofKind, List.filter_append, List.map_append]
  rfl

theorem ofKind_single (k kind : Kind) (key : Text) : ofKind [(k, key)] kind = if kind = k then [key] else [] := by
  by_cases h : kind = k
  · simp [ofKind, h]
  · simp [ofKind, h, Ne.symm h]

theorem ofKind_wordly (parts : List Text) (kind : Kind) : ofKind (wordly parts) kind = if kind = .word then parts else [] := by
  induction parts with
  | nil => simp [ofKind, wordly]
  | cons part parts ih =>
    rw [wordly, List.map_cons, ← List.singleton_append, ofKind_append, ofKind_single]
    rw [show ofKind (parts.map (Prod.mk .word)) kind = _ from ih]
    split <;> rfl

/-- The naming gives each key asked for the name it has. -/
def Agrees (ν : Kind → Text → Text) (ks : Keys) : Prop :=
  ∀ kind k v, kind.rename (asked kind.fixed (ofKind ks kind)) k = some v → ν kind k = v

theorem agrees_naming (ks : Keys) : Agrees (naming ks) ks := by
  intro kind k v h
  unfold naming
  rw [h, Option.getD_some]

theorem rename_later (more : Keys) {v : Text} (h : kind.rename (asked kind.fixed (ofKind ks kind)) key = some v) :
    kind.rename (asked kind.fixed (ofKind (ks ++ more) kind)) key = some v := by
  rw [ofKind_append, asked_append]
  exact rename_foldl_of_some _ h

theorem Agrees.earlier (h : Agrees ν (ks ++ more)) : Agrees ν ks := fun kind k v hk => h kind k v (rename_later more hk)

/-! ## What is cached -/

/-- The naming gives each key that is cached the name it has there. -/
structure Follows (ν : Kind → Text → Text) (s : State) : Prop where
  cached : ∀ kind k v, (s.maps kind).cache k = some v → ν kind k = v
  words : ∀ k v, s.unmappedWords k = some v → ν .word k = v

/-- Nothing leaves a cache. -/
structure Grows (s s' : State) : Prop where
  cached : ∀ kind k v, (s.maps kind).cache k = some v → (s'.maps kind).cache k = some v
  words : s'.unmappedWords = s.unmappedWords

theorem Grows.refl (s : State) : Grows s s := ⟨fun _ _ _ h => h, rfl⟩

theorem Grows.trans (h : Grows s s') (h' : Grows s' s'') : Grows s s'' :=
  ⟨fun kind k v hv => h'.cached kind k v (h.cached kind k v hv), h'.words.trans h.words⟩

theorem Grows.follows (h : Grows s s') (hν : Follows ν s') : Follows ν s :=
  ⟨fun kind k v hv => hν.cached kind k v (h.cached kind k v hv), fun k v hv => hν.words k v (by rw [h.words]; exact hv)⟩

theorem Map.anonymize_cache {m : Map} {v : Text} (print : Nat → Text) (key : Text) (h : m.cache word = some v) :
    (m.anonymize print key).1.cache word = some v := by
  unfold Map.anonymize
  split
  · exact h
  · next hnone =>
    have hne : word ≠ key := fun he => Option.some_ne_none v (h.symm.trans (he ▸ hnone))
    split <;> exact (Hash.store_of_ne hne ..).trans h

theorem Map.anonymize_cached (print : Nat → Text) (m : Map) (key : Text) :
    (m.anonymize print key).1.cache key = some (m.anonymize print key).2 := by
  unfold Map.anonymize
  split
  · next v hv => exact hv
  split <;> exact Hash.store_self ..

theorem State.anonymize_self (s : State) (kind : Kind) (key : Text) :
    (s.anonymize kind key).1.maps kind = ((s.maps kind).anonymize kind.print key).1 := Function.update_self ..

theorem grows_key (s : State) (kind : Kind) (key : Text) : Grows s (s.anonymize kind key).1 := by
  refine ⟨fun k t v hv => ?_, rfl⟩
  by_cases hk : k = kind
  · subst hk
    rw [State.anonymize_self]
    exact Map.anonymize_cache _ _ hv
  · show (Function.update s.maps kind _ k).cache t = some v
    rw [Function.update_of_ne hk]
    exact hv

theorem Follows.lookup (h : Follows ν (s.anonymize kind key).1) : (s.anonymize kind key).2 = ν kind key := by
  refine (h.cached kind key _ ?_).symm
  rw [State.anonymize_self]
  exact Map.anonymize_cached ..

/-- What a call of the anonymizer does: the keys asked for with it are `ks`, and its result is that of
    `f` under any naming that has the names now cached. -/
structure Gives (sure : Prop) (ks : Keys) (s : State) (r : State × α) (f : (Kind → Text → Text) → α) : Prop where
  serves : Serves sure r.1 (ofKind ks)
  grows : Grows s r.1
  result : ∀ ν, Follows ν r.1 → r.2 = f ν

theorem maxkey_blank : ' ' ∈ MAXKEY := by decide

theorem ne_maxkey (h : ' ' ∉ key) : key ≠ MAXKEY := fun he => h (he ▸ maxkey_blank)

theorem Serves.gives_key (h : Serves sure s (ofKind ks)) (kind : Kind) (hkey : ' ' ∉ key) :
    Gives sure (ks ++ [(kind, key)]) s (s.anonymize kind key) (fun ν => ν kind key) := by
  have hof : ofKind (ks ++ [(kind, key)]) = fun k => ofKind ks k ++ if k = kind then [key] else [] := by
    funext k
    rw [ofKind_append, ofKind_single]
  refine ⟨⟨?_, h.suffixes⟩, grows_key s kind key, fun ν hν => hν.lookup⟩
  rw [hof]
  exact (h.holds.anonymize (ne_maxkey hkey) kind).1

theorem grows_subword (s : State) (key : Text) : Grows s (anonymizeSubword s key).1 := by
  unfold anonymizeSubword
  split
  · exact Grows.refl s
  · exact grows_key s .word key

theorem Follows.subword (h : Follows ν (anonymizeSubword s key).1) : (anonymizeSubword s key).2 = ν .word key := by
  unfold anonymizeSubword at h ⊢
  split at h
  · next v hv => exact (h.words key v hv).symm
  · exact h.lookup

theorem grows_parts (parts : List Text) (s : State) : Grows s (anonymizeParts s parts).1 := by
  induction parts generalizing s with
  | nil => exact Grows.refl s
  | cons part parts ih => exact (grows_subword s part).trans (ih _)

theorem Follows.parts (parts : List Text) (h : Follows ν (anonymizeParts s parts).1) :
    (anonymizeParts s parts).2 = parts.map (ν .word) := by
  induction parts generalizing s with
  | nil => rfl
  | cons part parts ih =>
    have hrest : Follows ν (anonymizeParts (anonymizeSubword s part).1 parts).1 := h
    exact congrArg₂ List.cons ((grows_parts parts _).follows hrest).subword (ih hrest)

theorem Serves.gives_simpleword (h : Serves sure s (ofKind ks)) (hword : ' ' ∉ word) :
    Gives sure (ks ++ wordly (split '.' word)) s (anonymizeSIMPLEWORD s word) (fun ν => renameSIMPLEWORD (ν .word) word) := by
  have hof : ofKind (ks ++ wordly (split '.' word)) = fun k => ofKind ks k ++ if k = .word then split '.' word else [] := by
    funext k
    rw [ofKind_append, ofKind_wordly]
  refine ⟨⟨?_, (anonymizeParts_suffixes _ s).trans h.suffixes⟩, grows_parts _ s, fun ν hν => congrArg (join '.') (hν.parts _)⟩
  rw [hof]
  exact (h.holds.parts (MAXKEY_notMem '.' hword)).1

theorem Gives.refl {a : α} (h : Serves sure s (ofKind ks)) : Gives sure (ks ++ wordly []) s (s, a) fun _ => a :=
  ⟨by rw [wordly, List.map_nil, List.append_nil]; exact h, Grows.refl s, fun _ _ => rfl⟩

theorem Serves.gives_suffix (h : Serves sure s (ofKind ks)) (hword : ' ' ∉ word) :
    Gives sure (ks ++ wordly (suffixKeys word)) s (anonymizeSuffix s word) (fun ν => renameSuffix (ν .word) word) := by
  unfold anonymizeSuffix renameSuffix suffixKeys
  rw [h.suffixes]
  by_cases hw : word ∈ UnmappedSuffixes
  · simp only [if_pos hw]
    exact Gives.refl h
  · simp only [if_neg hw]
    exact h.gives_simpleword hword

theorem wordly_append (xs ys : List Text) : wordly (xs ++ ys) = wordly xs ++ wordly ys := List.map_append

theorem Serves.gives_word (h : Serves sure s (ofKind ks)) (hword : Field word) :
    Gives sure (ks ++ wordly (wordKeys word)) s (anonymizeWORD s word) (fun ν => renameWORD (ν .word) word) := by
  have hw : s.unmappedWords word = if word ∈ UnmappedWords then some word else none := by
    rw [h.holds.words]
    rfl
  unfold anonymizeWORD renameWORD wordKeys
  rw [hw]
  by_cases hun : word ∈ UnmappedWords
  · simp only [if_pos hun]
    exact Gives.refl h
  simp only [if_neg hun]
  have hspell := decorations_spell hword.2
  generalize decorations word = db at hspell ⊢
  obtain ⟨d, body⟩ := db
  have hbody : ' ' ∉ body := fun hmem => hword.1 (hspell.body_subset hmem)
  simp only
  unfold renameBody bodyKeys
  cases hrs : rootSuffix body with
  | none =>
    have hg := h.gives_simpleword hbody
    refine ⟨hg.serves, hg.grows, fun ν hν => ?_⟩
    simp only
    rw [hg.result ν hν]
  | some rs =>
    obtain ⟨root, suffix⟩ := rs
    obtain ⟨hroot, hsuffix⟩ := rootSuffix_subset hrs
    have hg := h.gives_simpleword fun hmem => hbody (hroot hmem)
    have hg' := hg.serves.gives_suffix fun hmem => hbody (hsuffix hmem)
    rw [List.append_assoc, ← wordly_append] at hg'
    refine ⟨hg'.serves, hg.grows.trans hg'.grows, fun ν hν => ?_⟩
    simp only
    rw [hg'.result ν hν, hg.result ν (hg'.grows.follows hν)]

theorem Serves.gives_components (components : List Text) (h : Serves sure s (ofKind ks)) (hcs : ∀ c ∈ components, Field c) :
    Gives sure (ks ++ wordly (components.flatMap wordKeys)) s (anonymizeComponents s components)
      (fun ν => components.map (renameWORD (ν .word))) := by
  induction components generalizing s ks with
  | nil => exact Gives.refl h
  | cons c components ih =>
    rw [List.forall_mem_cons] at hcs
    have hg := h.gives_word hcs.1
    have hg' := ih hg.serves hcs.2
    rw [List.append_assoc, ← wordly_append] at hg'
    rw [List.flatMap_cons]
    refine ⟨hg'.serves, hg.grows.trans hg'.grows, fun ν hν => ?_⟩
    show (anonymizeWORD s c).2 :: (anonymizeComponents (anonymizeWORD s c).1 components).2 = _
    rw [hg'.result ν hν, hg.result ν (hg'.grows.follows hν)]
    rfl

theorem Serves.gives_path (h : Serves sure s (ofKind ks)) (hword : Field word) :
    Gives sure (ks ++ wordly (pathKeys word)) s (anonymizePATH s word) (fun ν => renamePATH (ν .word) word) := by
  have hg := Serves.gives_components (split '/' word) h fun c hc =>
    ⟨fun hmem => hword.1 (Fields.subset_fields hc hmem), fun hmem => hword.2 (Fields.subset_fields hc hmem)⟩
  refine ⟨hg.serves, hg.grows, fun ν hν => ?_⟩
  show join '/' _ = _
  rw [hg.result ν hν]
  rfl

theorem field_nil : Field [] := by decide

theorem Field.unquote (h : Field val) : Field (unquote val) :=
  ⟨fun hmem => h.1 (List.mem_of_mem_filter hmem), fun hmem => h.2 (List.mem_of_mem_filter hmem)⟩

theorem Serves.gives_value (h : Serves sure s (ofKind ks)) (name : Text) (hval : Field val) :
    Gives sure (ks ++ valueKeys name val) s (anonymizeValue s name val) (fun ν => renameValue ν name val) := by
  unfold anonymizeValue valueKeys renameValue
  split
  · exact h.gives_key .uid hval.1
  split
  · exact h.gives_key .gid hval.1
  split
  · exact h.gives_key .fileid hval.1
  · have hg := h.gives_path hval.unquote
    exact ⟨hg.serves, hg.grows, fun ν hν => congrArg quote (hg.result ν hν)⟩

theorem Serves.gives_data (data : List Text) (h : Serves sure s (ofKind ks)) (hdata : ∀ w ∈ data, Field w) :
    Gives sure (ks ++ dataKeys data) s (anonymizeData s data) (fun ν => renameData ν data) := by
  induction data using dataKeys.induct generalizing s ks with
  | case1 label val data ih =>
    rw [List.forall_mem_cons, List.forall_mem_cons] at hdata
    unfold anonymizeData dataKeys renameData
    split
    · have hg := h.gives_value (stripIndex label) hdata.2.1
      have hg' := ih hg.serves hdata.2.2
      rw [List.append_assoc] at hg'
      refine ⟨hg'.serves, hg.grows.trans hg'.grows, fun ν hν => ?_⟩
      show label :: (anonymizeValue s (stripIndex label) val).2 :: _ = _
      rw [hg'.result ν hν, hg.result ν (hg'.grows.follows hν)]
    · have hg' := ih h hdata.2.2
      exact ⟨hg'.serves, hg'.grows, fun ν hν => congrArg (fun rest => label :: val :: rest) (hg'.result ν hν)⟩
  | case2 label hlabel =>
    unfold anonymizeData dataKeys renameData
    simp only [if_pos hlabel]
    have hg := h.gives_value (stripIndex label) field_nil
    exact ⟨hg.serves, hg.grows, fun ν hν => congrArg (fun v => [label, v]) (hg.result ν hν)⟩
  | case3 label hlabel =>
    unfold anonymizeData dataKeys renameData
    simp only [if_neg hlabel]
    exact Gives.refl h
  | case4 => exact Gives.refl h

/-! ## A line -/

theorem nonblank_notMem {w : Text} (h : Nonblank w) {b : Char} (hb : isBlank b = true) : b ∉ w := by
  intro hmem
  rw [h b hmem] at hb
  exact Bool.false_ne_true hb

theorem kept_field (p : Split) : ∀ w ∈ p.data, Field w := by
  intro w hw
  have hkept : w ∈ p.kept := by
    unfold Split.data at hw
    split at hw
    · exact hw
    · exact List.mem_of_mem_tail hw
  have hw := (mem_words hkept).2
  exact ⟨nonblank_notMem hw rfl, nonblank_notMem hw rfl⟩

/-- A field that others follow. -/
def Word (w : Text) : Prop := w ≠ [] ∧ Nonblank w

theorem Word.notMem {w : Text} (h : Word w) : ' ' ∉ w := nonblank_notMem h.2 rfl

theorem takeWhile_word {t : Text} (h : t.dropWhile isBlank = t) (hne : t ≠ []) : Word (t.takeWhile (!isBlank ·)) := by
  refine ⟨?_, fun c hc => by simpa using List.mem_takeWhile_imp hc⟩
  cases t with
  | nil => exact absurd rfl hne
  | cons c cs =>
    have hc : isBlank c = false := by
      by_contra hb
      rw [Bool.not_eq_false] at hb
      rw [List.dropWhile_cons, if_pos hb] at h
      exact absurd (congrArg List.length h) (by have := List.length_dropWhile_le isBlank cs; rw [List.length_cons]; omega)
    rw [List.takeWhile_cons, hc]
    exact List.cons_ne_nil _ _

theorem dropWhile_idem (t : Text) : (t.dropWhile isBlank).dropWhile isBlank = t.dropWhile isBlank := by
  induction t with
  | nil => rfl
  | cons c cs ih =>
    rw [List.dropWhile_cons]
    split
    · exact ih
    · next hc => rw [List.dropWhile_cons, if_neg hc]

theorem splitLimit_words (n : Nat) (t : Text) (h : t.dropWhile isBlank = t) : ∀ w ∈ (splitLimit n t).dropLast, Word w := by
  induction n, t using splitLimit.induct with
  | case1 t => exact fun w hw => absurd hw List.not_mem_nil
  | case2 t => exact fun w hw => absurd hw List.not_mem_nil
  | case3 n t rest hrest =>
    unfold splitLimit
    rw [if_pos hrest]
    exact fun w hw => absurd hw List.not_mem_nil
  | case4 n t rest hrest ih =>
    unfold splitLimit
    rw [if_neg hrest]
    intro w hw
    change w ∈ (_ :: splitLimit (n + 1) (rest.dropWhile isBlank)).dropLast at hw
    rcases hs : splitLimit (n + 1) (rest.dropWhile isBlank) with _ | ⟨x, xs⟩
    · rw [hs] at hw
      exact absurd hw List.not_mem_nil
    rw [hs] at hw ih
    rcases List.mem_cons.mp hw with rfl | hw
    · exact takeWhile_word h fun ht => hrest (by rw [show rest = t.dropWhile (!isBlank ·) from rfl, ht]; rfl)
    · exact ih (dropWhile_idem _) w hw

/-- The fields in front of the rest. -/
def Split.fields (p : Split) : List Text := [p.time, p.src_addr, p.des_addr, p.xpt, p.proto, p.xid, p.funcnum, p.funcname]

theorem splitLine_eq_some {l : Text} {p : Split} : splitLine l = some p ↔ splitLimit 9 (l.dropWhile isBlank) = p.fields ++ [p.rest] := by
  unfold splitLine
  constructor
  · intro h
    split at h
    · next hs =>
      rw [hs]
      cases h
      rfl
    · cases h
  · intro h
    rw [h]
    rfl

theorem splitLine_fields {l : Text} {p : Split} (h : splitLine l = some p) : ∀ w ∈ p.fields, Word w := by
  have hwords := splitLimit_words 9 (l.dropWhile isBlank) (dropWhile_idem l)
  rw [splitLine_eq_some.mp h, List.dropLast_concat] at hwords
  exact hwords

theorem hostOf_notMem {iaddr : Text} (h : ' ' ∉ iaddr) : ' ' ∉ hostOf iaddr := by
  intro hmem
  unfold hostOf at hmem
  rw [List.getD_eq_getElem?_getD] at hmem
  rcases hg : (split '.' iaddr)[0]? with _ | host
  · rw [hg] at hmem
    exact absurd hmem List.not_mem_nil
  · rw [hg] at hmem
    exact h (Fields.subset_fields (List.mem_of_getElem? hg) hmem)

/-- A key that has a name already may be asked for again. -/
theorem Serves.again (h : Serves sure s (ofKind ks)) {v : Text} (hkey : kind.rename (asked kind.fixed (ofKind ks kind)) key = some v) :
    Serves sure s (ofKind (ks ++ [(kind, key)])) := by
  refine ⟨⟨fun k hknown => ?_, h.holds.once, h.holds.alnum, h.holds.words⟩, h.suffixes⟩
  have hm := h.holds.maps k hknown
  rw [ofKind_append, ofKind_single]
  by_cases hk : k = kind
  · rw [if_pos hk]
    rw [hk] at hm ⊢
    rw [asked_concat, ask_of_some hkey]
    exact hm
  · rw [if_neg hk, List.append_nil]
    exact hm

/-- What is cached of a kind that is known is its naming. -/
theorem Serves.rename_of_cached (h : Serves sure s (ofKind ks)) (hknown : kind.Known sure) {v : Text}
    (hv : (s.maps kind).cache key = some v) : kind.rename (asked kind.fixed (ofKind ks kind)) key = some v := by
  obtain ⟨hne, hdb⟩ := (h.holds.maps kind hknown).cached key v hv
  rw [← (h.holds.maps kind hknown).filed.named key hne, hdb]

/-- What the maps hold, and that the host of an address is cached when the address is. -/
structure Session.Knows (sure : Prop) (t : Session) (ks : Keys) : Prop where
  serves : Serves sure t.state (ofKind ks)
  cached : ∀ iaddr tv, t.iaddrMapDBcache iaddr = some tv →
    ∃ v, (t.state.maps .host).cache (hostOf iaddr) = some v ∧ tv = v ++ '.' :: portOf iaddr

variable {t : Session}

theorem Session.Knows.mono {sure' : Prop} (h : t.Knows sure ks) (hsure : sure' → sure) : t.Knows sure' ks :=
  ⟨h.serves.mono hsure, h.cached⟩

/-- What a call does to a session, as `Gives` says it of the maps alone. -/
structure Session.Gives (sure : Prop) (ks : Keys) (t : Session) (r : Session × α) (f : (Kind → Text → Text) → α) : Prop where
  knows : Session.Knows sure r.1 ks
  grows : Grows t.state r.1.state
  result : ∀ ν, Follows ν r.1.state → r.2 = f ν

theorem Session.Knows.iaddr (h : t.Knows sure ks) {iaddr : Text} (hi : ' ' ∉ iaddr) :
    Session.Gives sure (ks ++ [(.host, hostOf iaddr)]) t (anonymizeIADDR t iaddr) (fun ν => renameIADDR ν iaddr) := by
  unfold anonymizeIADDR
  rcases hc : t.iaddrMapDBcache iaddr with _ | tv
  · have hg := h.serves.gives_key .host (hostOf_notMem hi)
    refine ⟨⟨hg.serves, fun iaddr' tv htv => ?_⟩, hg.grows, fun ν hν => ?_⟩
    · dsimp only at htv ⊢
      by_cases he : iaddr' = iaddr
      · subst he
        rw [Hash.store_self] at htv
        refine ⟨(anonymizeHOST t.state (hostOf iaddr')).2, ?_, (Option.some.inj htv).symm⟩
        rw [anonymizeHOST, State.anonymize_self]
        exact Map.anonymize_cached ..
      · rw [Hash.store_of_ne he] at htv
        obtain ⟨v, hv, htv⟩ := h.cached iaddr' tv htv
        exact ⟨v, (grows_key _ _ _).cached .host _ v hv, htv⟩
    · show (anonymizeHOST t.state (hostOf iaddr)).2 ++ _ = _
      rw [show (anonymizeHOST t.state (hostOf iaddr)).2 = _ from hg.result ν hν]
      rfl
  · obtain ⟨v, hv, rfl⟩ := h.cached iaddr tv hc
    refine ⟨⟨h.serves.again (h.serves.rename_of_cached known_host hv), h.cached⟩, Grows.refl _, fun ν hν => ?_⟩
    dsimp only [renameIADDR]
    rw [hν.cached .host _ _ hv]

theorem Session.Knows.addrs (h : t.Knows sure ks) {p : Split} (hsrc : ' ' ∉ p.src_addr) (hdes : ' ' ∉ p.des_addr) :
    Session.Gives sure (ks ++ addrKeys p) t (anonymizeAddrs t p) (fun ν => (renameIADDR ν p.src_addr, renameIADDR ν p.des_addr)) := by
  unfold anonymizeAddrs addrKeys
  split
  · have hd := h.iaddr hdes
    have hs := hd.knows.iaddr hsrc
    rw [List.append_assoc] at hs
    refine ⟨hs.knows, hd.grows.trans hs.grows, fun ν hν => ?_⟩
    dsimp only
    rw [hs.result ν hν, hd.result ν (hs.grows.follows hν)]
  · have hs := h.iaddr hsrc
    have hd := hs.knows.iaddr hdes
    rw [List.append_assoc] at hd
    refine ⟨hd.knows, hs.grows.trans hd.grows, fun ν hν => ?_⟩
    dsimp only
    rw [hd.result ν hν, hs.result ν (hd.grows.follows hν)]

/-- A line adds its keys to those that were asked for, and is written under the names that are cached then. -/
theorem Session.Knows.line (h : t.Knows sure ks) (l : Text) :
    Session.Gives sure (ks ++ lineKeys l) t (anonymizeLine t l) (fun ν => renameLine ν l) := by
  unfold anonymizeLine lineKeys renameLine recordOf
  cases hd : l.head?.any Char.isDigit with
  | false =>
    simp only [Bool.not_false, if_true, Bool.false_eq_true, if_false, List.append_nil]
    exact ⟨h, Grows.refl _, fun _ _ => rfl⟩
  | true =>
    simp only [Bool.not_true, Bool.false_eq_true, if_false, if_true]
    cases hp : splitLine l.dropLast with
    | none =>
      simp only [List.append_nil]
      exact ⟨h, Grows.refl _, fun _ _ => rfl⟩
    | some p =>
      have hfields := splitLine_fields hp
      have hsrc : ' ' ∉ p.src_addr := (hfields _ (by simp [Split.fields])).notMem
      have hdes : ' ' ∉ p.des_addr := (hfields _ (by simp [Split.fields])).notMem
      have ha := h.addrs hsrc hdes
      have hg := ha.knows.serves.gives_data p.data (kept_field p)
      rw [List.append_assoc] at hg
      refine ⟨⟨hg.serves, fun iaddr tv htv => ?_⟩, ha.grows.trans hg.grows, fun ν hν => ?_⟩
      · obtain ⟨v, hv, htv⟩ := ha.knows.cached iaddr tv htv
        exact ⟨v, hg.grows.cached .host _ v hv, htv⟩
      · dsimp only
        rw [hg.result ν hν, ha.result ν (hg.grows.follows hν)]
        rfl

/-! ## Lines and files -/

theorem Session.Knows.stream (ls : List Text) (h : t.Knows sure ks) :
    Session.Gives sure (ks ++ ls.flatMap lineKeys) t (anonymizeStream t ls) (fun ν => ls.flatMap (renameLine ν)) := by
  induction ls generalizing t ks with
  | nil =>
    rw [List.flatMap_nil, List.append_nil]
    exact ⟨h, Grows.refl _, fun _ _ => rfl⟩
  | cons l ls ih =>
    have hl := h.line l
    have hls := ih hl.knows
    rw [List.append_assoc] at hls
    rw [List.flatMap_cons]
    refine ⟨hls.knows, hl.grows.trans hls.grows, fun ν hν => ?_⟩
    show (anonymizeLine t l).2 ++ (anonymizeStream (anonymizeLine t l).1 ls).2 = _
    rw [hls.result ν hν, hl.result ν (hls.grows.follows hν)]
    rfl

/-- What is cached stays in the process. -/
theorem State.restart_cache {r : Restart} (base : Text) (s : State) (hexit : ¬ r.exit = true) :
    ((s.restart base r).maps kind).cache = (s.maps kind).cache := by
  have hclose : ∀ m : Map, m.close.cache = m.cache := by
    intro m
    unfold Map.close
    split <;> rfl
  have htie : ∀ m : Map, (m.tie r.found).cache = m.cache := by
    intro m
    unfold Map.tie
    split <;> rfl
  have hresume : ∀ m : Map, (m.resume kind.start).cache = m.cache := by
    intro m
    unfold Map.resume
    split <;> rfl
  show ((((r.process (closeMapFiles s)).maps kind).tie r.found).resume kind.start).cache = _
  rw [hresume, htie, Restart.process, if_neg hexit]
  cases kind with
  | fileid => rfl
  | word | host | uid | gid => exact hclose _

theorem Session.Knows.restart (base : Text) (r : Restart) (h : t.Knows sure ks) : (t.restart base r).Knows (sure ∧ r.exit = true) ks := by
  refine ⟨h.serves.restart base r, fun iaddr tv htv => ?_⟩
  change (if r.exit then fun _ => none else t.iaddrMapDBcache) iaddr = some tv at htv
  split at htv
  · exact absurd htv (Option.some_ne_none tv).symm
  · next hexit =>
    obtain ⟨v, hv, htv⟩ := h.cached iaddr tv htv
    refine ⟨v, ?_, htv⟩
    show ((t.state.restart base r).maps .host).cache _ = _
    rw [State.restart_cache base _ hexit]
    exact hv

theorem Session.knows_reopen_boot (base : Text) (r : Restart) : (Session.boot.reopen base r).Knows True [] := by
  have hcache : (Session.boot.reopen base r).iaddrMapDBcache = fun _ => none := ite_self _
  refine ⟨?_, fun _ tv htv => ?_⟩
  · show Serves True ((State.boot fun _ _ => none).reopen base r) _
    rw [reopen_boot]
    exact serves_first base
  · rw [hcache] at htv
    exact absurd htv (Option.some_ne_none tv).symm

theorem Session.knows_first (base : Text) : (Session.first base).Knows True [] :=
  ⟨serves_first base, fun _ tv htv => absurd htv (Option.some_ne_none tv).symm⟩

def fileKeys (file : Text) : Keys := (readLines file).flatMap lineKeys

/-- `ν`, but for file ids. -/
def exceptFileids (ν : Kind → Text → Text) (φ : Text → Text) : Kind → Text → Text := Function.update ν .fileid φ

/-- `c` is the file under any naming of these keys, with names of its own for file ids unless they are sure. -/
structure Renders (sure : Prop) (ks : Keys) (file c : Text) : Prop where
  others : ∃ φ : Text → Text, (∀ key, Alnum (φ key)) ∧
    ∀ ν, Agrees ν ks → c = (readLines file).flatMap (renameLine (exceptFileids ν φ))
  all : sure → ∀ ν, Agrees ν ks → c = (readLines file).flatMap (renameLine ν)

theorem Renders.mono {sure' : Prop} {file c : Text} (h : Renders sure ks file c) (hsure : sure' → sure) : Renders sure' ks file c :=
  ⟨h.others, fun hs => h.all (hsure hs)⟩

theorem Renders.later {file c : Text} (h : Renders sure ks file c) (more : Keys) : Renders sure (ks ++ more) file c := by
  obtain ⟨φ, hφ, hc⟩ := h.others
  exact ⟨⟨φ, hφ, fun ν hν => hc ν hν.earlier⟩, fun hs ν hν => h.all hs ν hν.earlier⟩

theorem Session.Knows.follows {ν' : Kind → Text → Text} (h : t.Knows sure ks) (hν : Agrees ν ks)
    (hsame : ∀ kind ≠ .fileid, ν' kind = ν kind) (hids : ∀ k v, (t.state.maps .fileid).cache k = some v → ν' .fileid k = v) :
    Follows ν' t.state := by
  refine ⟨fun kind k v hv => ?_, fun k v hv => ?_⟩
  · by_cases hk : kind = .fileid
    · subst hk
      exact hids k v hv
    · rw [hsame kind hk]
      exact hν kind k v (h.serves.rename_of_cached (Kind.known_of_ne hk) hv)
  · rw [h.serves.holds.words] at hv
    rw [hsame .word (by decide)]
    exact hν .word k v (rename_of_fixed hv)

/-- A file adds its keys, and is written under any naming of them. -/
theorem Session.Knows.file (file : Text) (h : t.Knows sure ks) :
    (anonymizeStream t (readLines file)).1.Knows sure (ks ++ fileKeys file) ∧
      Renders sure (ks ++ fileKeys file) file (anonymizeStream t (readLines file)).2 := by
  have hs := h.stream (readLines file)
  generalize anonymizeStream t (readLines file) = r at hs ⊢
  have hcached : ∀ k v, (r.1.state.maps .fileid).cache k = some v → ((r.1.state.maps .fileid).cache k).getD [] = v := by
    intro k v hv
    rw [hv, Option.getD_some]
  refine ⟨hs.knows, ⟨fun k => ((r.1.state.maps .fileid).cache k).getD [], fun k c hc => ?_, fun ν hν => ?_⟩, fun hsure ν hν => ?_⟩
  · dsimp only at hc
    rcases hv : (r.1.state.maps .fileid).cache k with _ | v
    · rw [hv] at hc
      exact absurd hc List.not_mem_nil
    · rw [hv] at hc
      exact hs.knows.serves.holds.alnum k v (Or.inr hv) c hc
  · exact hs.result _ (hs.knows.follows hν (fun kind hk => Function.update_of_ne hk ..) hcached)
  · refine hs.result ν (hs.knows.follows hν (fun _ _ => rfl) fun k v hv => ?_)
    exact hν .fileid k v (hs.knows.serves.rename_of_cached (fun _ => hsure) hv)

theorem length_anonymizeFiles (base : Text) (files : List (Text × Restart)) (t : Session) :
    (anonymizeFiles base t files).length = files.length := by
  induction files generalizing t with
  | nil => rfl
  | cons f files ih => exact congrArg (· + 1) (ih _)

theorem Session.Knows.files (base : Text) (before : List (Text × Restart)) (f : Text × Restart) (after : List (Text × Restart))
    (h : t.Knows sure ks) : ∃ out, (anonymizeFiles base t (before ++ f :: after))[before.length]? = some out ∧
      Renders (sure ∧ ∀ g ∈ before, g.2.exit = true) (ks ++ (before ++ f :: after).flatMap fun g => fileKeys g.1) f.1 out := by
  induction before generalizing t ks sure with
  | nil =>
    refine ⟨_, rfl, ?_⟩
    rw [List.nil_append, List.flatMap_cons, ← List.append_assoc]
    exact ((h.file f.1).2.mono And.left).later _
  | cons g before ih =>
    obtain ⟨out, hout, hrenders⟩ := ih ((h.file g.1).1.restart base g.2)
    refine ⟨out, hout, ?_⟩
    rw [List.cons_append, List.flatMap_cons, ← List.append_assoc, List.forall_mem_cons, ← and_assoc]
    exact hrenders

/-- The naming of all files. -/
def namingOf (files : List (Text × Restart)) : Kind → Text → Text := naming (files.flatMap fun f => fileKeys f.1)

theorem anonymizeFiles_getElem (base : Text) {files : List (Text × Restart)} {i : Nat} {out : Text}
    (hout : (anonymizeFiles base (Session.first base) files)[i]? = some out) : ∃ f, files[i]? = some f ∧
      Renders (True ∧ ∀ g ∈ files.take i, g.2.exit = true) (files.flatMap fun g => fileKeys g.1) f.1 out := by
  have hi : i < files.length := by
    rw [← length_anonymizeFiles base files (Session.first base)]
    exact (List.getElem?_eq_some_iff.mp hout).1
  have hsplit : files.take i ++ files[i] :: files.drop (i + 1) = files := by
    rw [← List.drop_eq_getElem_cons hi, List.take_append_drop]
  obtain ⟨out', hout', hrenders⟩ := (Session.knows_first base).files base (files.take i) files[i] (files.drop (i + 1))
  rw [hsplit, List.length_take, Nat.min_eq_left hi.le, hout] at hout'
  rw [hsplit, List.nil_append] at hrenders
  cases hout'
  exact ⟨files[i], List.getElem?_eq_getElem hi, hrenders⟩

/-- One naming for all files, whichever process reads them: that of the keys of all lines in their order. File
    ids are under it too as long as every file before was the only one of its process. -/
theorem files_renamed (base : Text) (before : List (Text × Restart)) (f : Text × Restart) (after : List (Text × Restart)) :
    (anonymizeFiles base (Session.first base) (before ++ f :: after)).length = (before ++ f :: after).length ∧
      ∃ out, (anonymizeFiles base (Session.first base) (before ++ f :: after))[before.length]? = some out ∧
        (∃ φ : Text → Text, (∀ key, Alnum (φ key)) ∧
          out = (readLines f.1).flatMap (renameLine (exceptFileids (namingOf (before ++ f :: after)) φ))) ∧
        ((∀ g ∈ before, g.2.exit = true) → out = (readLines f.1).flatMap (renameLine (namingOf (before ++ f :: after)))) := by
  obtain ⟨out, hout, ⟨φ, hφ, hothers⟩, hall⟩ := (Session.knows_first base).files base before f after
  rw [List.nil_append] at hothers hall
  refine ⟨length_anonymizeFiles .., out, hout, ⟨φ, hφ, hothers _ (agrees_naming _)⟩, fun hown => ?_⟩
  exact hall ⟨trivial, hown⟩ _ (agrees_naming _)

/-- What is written is one of the files under the naming, but for file ids. -/
theorem mem_anonymizeFiles (base : Text) {files : List (Text × Restart)} {out : Text}
    (hout : out ∈ anonymizeFiles base (Session.first base) files) : ∃ f ∈ files, ∃ φ : Text → Text, (∀ key, Alnum (φ key)) ∧
      out = (readLines f.1).flatMap (renameLine (exceptFileids (namingOf files) φ)) := by
  obtain ⟨i, hi⟩ := List.mem_iff_getElem?.mp hout
  obtain ⟨f, hf, hrenders⟩ := anonymizeFiles_getElem base hi
  obtain ⟨φ, hφ, hlines⟩ := hrenders.others
  exact ⟨f, List.mem_of_getElem? hf, φ, hφ, hlines _ (agrees_naming _)⟩

/-- Every file but the last is the only one of its process. -/
def OwnProcesses (files : List (Text × Restart)) : Prop := ∀ f ∈ files.dropLast, f.2.exit = true

theorem files_own (base : Text) {files : List (Text × Restart)} (hown : OwnProcesses files) :
    anonymizeFiles base (Session.first base) files = files.map fun f => (readLines f.1).flatMap (renameLine (namingOf files)) := by
  apply List.ext_getElem?
  intro i
  rcases hout : (anonymizeFiles base (Session.first base) files)[i]? with _ | out
  · rw [List.getElem?_eq_none_iff, length_anonymizeFiles] at hout
    rw [List.getElem?_eq_none ((List.length_map _).trans_le hout)]
  · obtain ⟨f, hf, hrenders⟩ := anonymizeFiles_getElem base hout
    have hbefore : ∀ g ∈ files.take i, g.2.exit = true := by
      intro g hg
      refine hown g (List.mem_of_mem_take (i := i) ?_)
      rw [List.dropLast_eq_take, List.take_take, Nat.min_eq_left (by have := (List.getElem?_eq_some_iff.mp hf).1; omega)]
      exact hg
    rw [List.getElem?_map, hf, hrenders.all ⟨trivial, hbefore⟩ _ (agrees_naming _)]
    rfl

end Nfsdump.Anonymize
