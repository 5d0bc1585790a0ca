/-
  Nfsdump.Anonymize.Maps — the name maps of the anonymizer (scripts/anonymize.pl): for each
  kind of name a database file, a cache over it and a counter, and what a run of the
  anonymizing calls and of restarts does to them.

  Proved (`run_represents`): at every moment of every run that does not ask for the reserved
  key, database, cache, counter and the stored counter together hold the naming of a supply:
  the words, users and groups of the literal lists have themselves as names, every other key
  has the name of the counter's value when it was first asked for, and a restart, with or
  without a new process, changes nothing of it. The file ids, which are never untied, have
  theirs as long as no process opens the maps twice.
-/

import Nfsdump.Lib.Renaming
import Nfsdump.Lib.Digits
import Nfsdump.Lib.Words
import Mathlib.Data.List.DropRight

namespace Nfsdump.Anonymize

/-! ## The maps -/

abbrev Text := List Char

/-- A Perl hash; a tied one has the contents of its file. -/
abbrev Hash := Text → Option Text

def Hash.store (h : Hash) (key value : Text) : Hash := Function.update h key (some value)

/-- `foreach $w (@ws) { $h{$w} = $w; }` -/
def Hash.storeAll (h : Hash) (ws : List Text) : Hash := ws.foldl (fun h w => h.store w w) h

def MAXKEY : Text := "MAX KEY".toList

def UnmappedUIDs : List Text := ["0", "1", "2", "3", "4", "60001", "60002", "65533", "65534", "65535"].map String.toList

def UnmappedGIDs : List Text :=
  ["0", "1", "2", "3", "4", "6", "7", "8", "60001", "60002", "65533", "65534", "65535"].map String.toList

def UnmappedWords : List Text :=
  [".", "..", "core", ".netscape", ".htaccess",
    "bookmarks", ".inbox", "inbox",
    "mail", ".mail", "Mail",
    "INBOX", "INBOX.MTX", ".cshrc", ".login",
    ".logout", ".tcshrc", ".hushlogin",
    ".exrc", ".vimrc",
    ".signature", ".aliases",
    ".ssh", ".Xauthority", ".Xdefaults",
    "public_html", "index.html", "index.htm",
    ".addressbook", ".addressbook.lu",
    ".pinerc", ".pinercex", ".mailcap",
    ".pine-debug1", ".pine-debug2", ".pine-debug3",
    ".pine-debug4", "mbox", "sent-mail",
    ".imaprc", ".mminit",
    ".history",
    ".gnome", ".gnomeprivate", ".gnome-desktop",
    "TODO", "Papers", "Archive",
    "postponed-msgs.lock",
    ".pine-interrupted-mail.lock",
    "lock",
    "cvs-all", "log",
    "tmp",
    ".emacs",
    ".mh_profile",
    "nsmail",
    "usr", "lib", "bin",
    ".xsession", ".xauth", ".mc", ".fvwmrc", ".newsrc",
    ".mailrc", ".dt", ".oldnewsrc", ".vmware", ".mh_aliases",
    "News",
    ".ICEauthority", ".kde",
    "Applet_2", "Applet_3.desktop", "Applet_4.desktop",
    "Applet_5.desktop", "Applet_6.desktop",
    "Applet_6_Extern", "Applet_7_Extern",
    "Applet_8_Extern", "Applet_9_Extern", "Applet_10",
    "Applet_10_Extern", "Applet_11", "Applet_11.desktop",
    "Applet_11_Extern",
    "Applet_12_Extern", "Applet_Config",
    "Sent\\20Items", "saved-messages",
    "Drafts", "Received",
    "*",
    "Sent\\20Items", "Saved\\20Files",
    "Trash", "Drafts", "sent-mail",
    "postponed-msgs"].map String.toList

def UnmappedSuffixes : List Text :=
  ["CC", "TIF", "a", "asm", "aux", "c", "cc", "cgi",
    "class", "cpp", "csh", "css", "dat", "dll", "doc",
    "dvi", "el", "elc", "gif", "h", "hh", "hpp", "html",
    "java", "jpg", "js", "lib", "lock", "log", "lsp",
    "ml", "mli", "mpeg", "mpg", "o", "pdf", "pl", "png",
    "ppt", "ps", "py", "sh", "sml", "sty", "tex", "tfm",
    "txt", "xls", "xpm", "bak"].map String.toList

/-- `%d`, and how the database holds a counter. -/
def decimal (n : Nat) : Text := Nat.toDigits 10 n

/-- `%x` -/
def hex (n : Nat) : Text := Nat.toDigits 16 n

/-- `%.4x` -/
def hex4 (n : Nat) : Text := List.replicate (4 - (hex n).length) '0' ++ hex n

/-- A counter as read back from the database. -/
def number (t : Text) : Nat := Nat.ofDigitChars 10 t 0

inductive Kind where
  | word
  | host
  | uid
  | gid
  | fileid
  deriving DecidableEq, Repr

/-- Where the counter of a kind starts. -/
def Kind.start : Kind → Nat
  | .word => 0
  | .host => 30
  | _ => 101000

/-- How a counter is made into a name. -/
def Kind.print : Kind → Nat → Text
  | .word => hex4
  | .host => decimal
  | _ => hex

/-- What `initializeMaps` puts into the database. -/
def Kind.unmapped : Kind → List Text
  | .word => UnmappedWords
  | .uid => UnmappedUIDs
  | .gid => UnmappedGIDs
  | _ => []

/-- `%uidMapDB`, `%uidMapDBcache`, `$uidCounter`, and whether `$uidMapDBctl` is defined; the
    other kinds alike. The counter counts without a bound. -/
structure Map where
  db : Hash
  cache : Hash
  counter : Nat
  ctl : Bool
  /-- It was tied while it was tied. -/
  retied : Bool

structure State where
  maps : Kind → Map
  unmappedWords : Hash
  unmappedSuffix : Hash

/-! ## Lookups -/

/-- The body that `anonymizeHOST`, `anonymizeUID`, `anonymizeGID` and `anonymizeFILEID` share. -/
def Map.anonymize (print : Nat → Text) (m : Map) (key : Text) : Map × Text :=
  match m.cache key with
  | some v => (m, v)
  | none =>
    match m.db key with
    | some v => ({ m with cache := m.cache.store key v }, v)
    | none =>
      let v := print m.counter
      ({ m with
          db := (m.db.store key v).store MAXKEY (decimal (m.counter + 1))
          cache := m.cache.store key v
          counter := m.counter + 1 }, v)

def State.anonymize (s : State) (kind : Kind) (key : Text) : State × Text :=
  let r := (s.maps kind).anonymize kind.print key
  ({ s with maps := Function.update s.maps kind r.1 }, r.2)

def anonymizeHOST (s : State) (host_ip : Text) : State × Text := s.anonymize .host host_ip

def anonymizeUID (s : State) (uid : Text) : State × Text := s.anonymize .uid uid

def anonymizeGID (s : State) (gid : Text) : State × Text := s.anonymize .gid gid

def anonymizeFILEID (s : State) (fileid : Text) : State × Text := s.anonymize .fileid fileid

/-- One part of a word, in the loop of `anonymizeSIMPLEWORD`. -/
def anonymizeSubword (s : State) (subword : Text) : State × Text :=
  match s.unmappedWords subword with
  | some v => (s, v)
  | none => s.anonymize .word subword

def anonymizeParts : State → List Text → State × List Text
  | s, [] => (s, [])
  | s, part :: parts =>
    let r := anonymizeSubword s part
    let rest := anonymizeParts r.1 parts
    (rest.1, r.2 :: rest.2)

/-- Perl's `split` at a character: the fields between its occurrences, without the empty ones at the end. -/
def split (sep : Char) (t : Text) : List Text := (t.splitOn sep).rdropWhile List.isEmpty

/-- Perl's `join` -/
def join (sep : Char) (ts : List Text) : Text := [sep].intercalate ts

def anonymizeSIMPLEWORD (s : State) (word : Text) : State × Text :=
  let r := anonymizeParts s (split '.' word)
  (r.1, join '.' r.2)

/-! ## Opening and closing -/

/-- `tie`. The file of a map that is tied is opened before what was stored is flushed into it:
    what is then in the map is `found`. -/
def Map.tie (found : Hash) (m : Map) : Map := if m.ctl then { m with db := found, retied := true } else { m with ctl := true }

/-- Pick up the counter where it was left. -/
def Map.resume (start : Nat) (m : Map) : Map :=
  match m.db MAXKEY with
  | some v => { m with counter := number v }
  | none => { m with counter := start, db := m.db.store MAXKEY (decimal start) }

def openMapFiles (base : Option Text) (found : Hash) (s : State) : State :=
  match base with
  | some _ => { s with maps := fun k => ((s.maps k).tie found).resume k.start }
  | none =>
    { s with maps := fun k =>
        match k with
        | .fileid => s.maps .fileid
        | k => { s.maps k with counter := k.start, ctl := false } }

def initializeMaps (s : State) : State where
  maps := fun k => { s.maps k with db := (s.maps k).db.storeAll k.unmapped }
  unmappedSuffix := s.unmappedSuffix.storeAll UnmappedSuffixes
  unmappedWords := s.unmappedWords.storeAll UnmappedWords

def Map.close (m : Map) : Map :=
  if m.ctl then { m with db := m.db.store MAXKEY (decimal m.counter), ctl := false } else m

/-- The file ids are left tied. -/
def closeMapFiles (s : State) : State :=
  { s with maps := fun k =>
      match k with
      | .fileid => s.maps .fileid
      | k => (s.maps k).close }

/-- A process that has just started, on files with these contents. -/
def State.boot (files : Kind → Hash) : State where
  maps := fun k => ⟨files k, fun _ => none, 0, false, false⟩
  unmappedWords := fun _ => none
  unmappedSuffix := fun _ => none

/-- What a process leaves in the files. Of a map that was tied twice both handles were flushed. -/
def State.files (found : Hash) (s : State) (kind : Kind) : Hash := if (s.maps kind).retied then found else (s.maps kind).db

/-! ## Runs -/

/-- Letters and digits, as in the names of file ids and in counters. -/
def Alnum (t : Text) : Prop := ∀ c ∈ t, c.isAlphanum = true

/-- The maps are opened again, in the same process or in a new one. Where it depends on what was
    flushed, `found` is what is found: names and counters, whatever they are. -/
structure Restart where
  exit : Bool
  found : Hash
  alnum : ∀ key v, found key = some v → Alnum v

def Restart.empty (exit : Bool) : Restart := ⟨exit, fun _ => none, fun _ v h => absurd h (Option.some_ne_none v).symm⟩

inductive Event where
  | word (word : Text)
  | host (host_ip : Text)
  | uid (uid : Text)
  | gid (gid : Text)
  | fileid (fileid : Text)
  /-- Close, open and initialize the maps again. -/
  | restart (r : Restart)

/-- The process that opens the maps. -/
def Restart.process (r : Restart) (closed : State) : State := if r.exit then State.boot (closed.files r.found) else closed

def State.reopen (base : Text) (r : Restart) (closed : State) : State :=
  initializeMaps (openMapFiles (some base) r.found (r.process closed))

def State.restart (base : Text) (r : Restart) (s : State) : State := (closeMapFiles s).reopen base r

/-- One name given: of which kind, for what. -/
structure Entry where
  kind : Kind
  key : Text
  name : Text
  deriving DecidableEq, Repr

def State.step (base : Text) (s : State) : Event → State × List Entry
  | .word w => ((anonymizeSIMPLEWORD s w).1, List.zipWith (Entry.mk .word) (split '.' w) (anonymizeParts s (split '.' w)).2)
  | .host t => ((anonymizeHOST s t).1, [⟨.host, t, (anonymizeHOST s t).2⟩])
  | .uid t => ((anonymizeUID s t).1, [⟨.uid, t, (anonymizeUID s t).2⟩])
  | .gid t => ((anonymizeGID s t).1, [⟨.gid, t, (anonymizeGID s t).2⟩])
  | .fileid t => ((anonymizeFILEID s t).1, [⟨.fileid, t, (anonymizeFILEID s t).2⟩])
  | .restart r => (s.restart base r, [])

def State.run (base : Text) (s : State) : List Event → State × List Entry
  | [] => (s, [])
  | e :: es =>
    let r := s.step base e
    let rest := r.1.run base es
    (rest.1, r.2 ++ rest.2)

/-- The first process, with no files yet. -/
def State.first (base : Text) : State := initializeMaps (openMapFiles (some base) (fun _ => none) (State.boot fun _ _ => none))

/-- The names of one kind that a run gave, in order. -/
def names (kind : Kind) (log : List Entry) : List (Text × Text) :=
  (log.filter fun e => e.kind = kind).map fun e => (e.key, e.name)

/-- The keys of one kind that an event looks up. -/
def Event.asks (kind : Kind) : Event → List Text
  | .word w => if kind = .word then split '.' w else []
  | .host t => if kind = .host then [t] else []
  | .uid t => if kind = .uid then [t] else []
  | .gid t => if kind = .gid then [t] else []
  | .fileid t => if kind = .fileid then [t] else []
  | .restart _ => []

def asks (kind : Kind) (es : List Event) : List Text := es.flatMap (Event.asks kind)

/-! ## The naming that the maps hold -/

open Renaming

theorem Hash.store_self (h : Hash) (key v : Text) : h.store key v key = some v := Function.update_self ..

theorem Hash.store_of_ne {key k : Text} (hne : k ≠ key) (h : Hash) (v : Text) : h.store key v k = h k :=
  Function.update_of_ne hne ..

theorem Hash.storeAll_apply (ws : List Text) (h : Hash) (k : Text) : h.storeAll ws k = if k ∈ ws then some k else h k := by
  induction ws generalizing h with
  | nil => rfl
  | cons w ws ih =>
    show (h.store w w).storeAll ws k = _
    rw [ih]
    by_cases hk : k ∈ ws
    · rw [if_pos hk, if_pos (List.mem_cons_of_mem w hk)]
    · rw [if_neg hk]
      by_cases hw : k = w
      · rw [hw, Hash.store_self, if_pos List.mem_cons_self]
      · rw [Hash.store_of_ne hw, if_neg (by simp [hw, hk])]

theorem number_decimal (n : Nat) : number (decimal n) = n := Nat.ofDigitChars_toDigits (by decide) (by decide)

def Kind.fixed (kind : Kind) (key : Text) : Option Text := if key ∈ kind.unmapped then some key else none

def Kind.supply (kind : Kind) (i : Nat) : Text := kind.print (kind.start + i)

theorem Kind.fixed_eq_some {kind : Kind} {key v : Text} : kind.fixed key = some v ↔ key ∈ kind.unmapped ∧ v = key := by
  unfold Kind.fixed
  split
  · next h => simp [h, eq_comm]
  · next h => simp [h]

theorem Kind.fixed_injective (kind : Kind) (k k' v : Text) (h : kind.fixed k = some v) (h' : kind.fixed k' = some v) : k = k' :=
  (fixed_eq_some.mp h).2.symm.trans (fixed_eq_some.mp h').2

theorem Kind.maxkey_notMem (kind : Kind) : MAXKEY ∉ kind.unmapped := by cases kind <;> decide

abbrev Kind.rename (kind : Kind) (ks : List Text) : Text → Option Text := Renaming.rename kind.fixed kind.supply ks

/-- A database that holds the naming of these keys, and where the counter was left. -/
structure Filed (kind : Kind) (db : Hash) (ks : List Text) : Prop where
  stored : db MAXKEY = some (decimal (kind.start + ks.length))
  named : ∀ k, k ≠ MAXKEY → db k = kind.rename ks k

structure Represents (kind : Kind) (m : Map) (ks : List Text) : Prop where
  filed : Filed kind m.db ks
  counter : m.counter = kind.start + ks.length
  cached : ∀ k v, m.cache k = some v → k ≠ MAXKEY ∧ m.db k = some v

/-- Letters and digits are all that it has. -/
def Map.Alnum (m : Map) : Prop := ∀ key v, m.db key = some v ∨ m.cache key = some v → Anonymize.Alnum v

/-- The map of the kind is known: of file ids only as long as that is `sure`. -/
def Kind.Known (sure : Prop) (kind : Kind) : Prop := kind = .fileid → sure

/-- After the lookups `qs` of each kind. -/
structure Holds (sure : Prop) (s : State) (qs : Kind → List Text) : Prop where
  maps : ∀ kind, kind.Known sure → Represents kind (s.maps kind) (asked kind.fixed (qs kind))
  once : ∀ kind, kind.Known sure → (s.maps kind).retied = false
  /-- Whatever a file id is named. -/
  alnum : (s.maps .fileid).Alnum
  words : s.unmappedWords = Kind.word.fixed

/-! ## Lookups keep it -/

variable {kind : Kind} {m : Map} {ks : List Text} {key : Text} {s : State} {qs : Kind → List Text} {sure : Prop}

theorem Represents.fresh_name (h : Represents kind m ks) (hkey : key ≠ MAXKEY) (hc : m.cache key = none) (hdb : m.db key = none) :
    Represents kind (m.anonymize kind.print key).1 (ks ++ [key]) ∧
      kind.rename (ks ++ [key]) key = some (m.anonymize kind.print key).2 := by
  have hnone : kind.rename ks key = none := by rw [← h.filed.named key hkey, hdb]
  have hself : kind.rename (ks ++ [key]) key = some (kind.print m.counter) := by
    rw [h.counter]
    exact rename_append_self hnone
  simp only [Map.anonymize, hc, hdb]
  refine ⟨⟨⟨?_, fun k hk => ?_⟩, ?_, fun k v hk => ?_⟩, hself⟩
  · dsimp only
    rw [Hash.store_self, h.counter, List.length_append, List.length_singleton, Nat.add_assoc]
  · dsimp only
    rw [Hash.store_of_ne hk]
    by_cases hkk : k = key
    · rw [hkk, Hash.store_self, hself]
    · rw [Hash.store_of_ne hkk, h.filed.named k hk]
      exact (rename_append_other hkk).symm
  · show m.counter + 1 = _
    rw [h.counter, List.length_append, List.length_singleton, Nat.add_assoc]
  · dsimp only at hk ⊢
    by_cases hkk : k = key
    · subst hkk
      rw [Hash.store_self] at hk
      exact ⟨hkey, by rw [Hash.store_of_ne hkey, Hash.store_self, hk]⟩
    · rw [Hash.store_of_ne hkk] at hk
      obtain ⟨hk', hv⟩ := h.cached k v hk
      exact ⟨hk', by rw [Hash.store_of_ne hk', Hash.store_of_ne hkk, hv]⟩

theorem Represents.anonymize (h : Represents kind m ks) (hkey : key ≠ MAXKEY) :
    Represents kind (m.anonymize kind.print key).1 (ask kind.fixed ks key) ∧
      kind.rename (ask kind.fixed ks key) key = some (m.anonymize kind.print key).2 := by
  rcases hc : m.cache key with _ | v
  · rcases hdb : m.db key with _ | v
    · have hnone : kind.rename ks key = none := by rw [← h.filed.named key hkey, hdb]
      rw [ask_of_none hnone]
      exact h.fresh_name hkey hc hdb
    · have hsome : kind.rename ks key = some v := by rw [← h.filed.named key hkey, hdb]
      rw [ask_of_some hsome, hsome]
      simp only [Map.anonymize, hc, hdb]
      refine ⟨⟨h.filed, h.counter, fun k u hk => ?_⟩, trivial⟩
      dsimp only at hk
      by_cases hkk : k = key
      · subst hkk
        rw [Hash.store_self] at hk
        exact ⟨hkey, hdb.trans hk⟩
      · rw [Hash.store_of_ne hkk] at hk
        exact h.cached k u hk
  · have hsome : kind.rename ks key = some v := by rw [← h.filed.named key hkey, (h.cached key v hc).2]
    rw [ask_of_some hsome, hsome]
    simp only [Map.anonymize, hc]
    exact ⟨h, trivial⟩

theorem alnum_digits {b n : Nat} (hb : 1 < b) (hb' : b ≤ 16) : Alnum (Nat.toDigits b n) := by
  intro c hc
  obtain ⟨d, hd, rfl⟩ := Digits.mem_toDigits hb hc
  have hlt : d < 16 := hd.trans_le hb'
  interval_cases d <;> decide

theorem Map.Alnum.anonymize (h : m.Alnum) : (m.anonymize hex key).1.Alnum := by
  have store : ∀ {db : Hash} {key v : Text}, Anonymize.Alnum v → (∀ k u, db k = some u → Anonymize.Alnum u) →
      ∀ k u, db.store key v k = some u → Anonymize.Alnum u := by
    intro db key v hv hdb k u hu
    by_cases hk : k = key
    · rw [hk, Hash.store_self] at hu
      exact Option.some_inj.mp hu ▸ hv
    · rw [Hash.store_of_ne hk] at hu
      exact hdb k u hu
  have hdb : ∀ k u, m.db k = some u → Anonymize.Alnum u := fun k u hu => h k u (Or.inl hu)
  have hcache : ∀ k u, m.cache k = some u → Anonymize.Alnum u := fun k u hu => h k u (Or.inr hu)
  unfold Map.anonymize
  split
  · exact h
  split
  · next v hv => exact fun k u hu => hu.elim (hdb k u) (store (hdb key v hv) hcache k u)
  · have hname : Anonymize.Alnum (hex m.counter) := alnum_digits (by decide) (by decide)
    have hnext : Anonymize.Alnum (decimal (m.counter + 1)) := alnum_digits (by decide) (by decide)
    exact fun k u hu => hu.elim (store hnext (store hname hdb) k u) (store hname hcache k u)

theorem Map.anonymize_retied (print : Nat → Text) (m : Map) (key : Text) : (m.anonymize print key).1.retied = m.retied := by
  unfold Map.anonymize
  split
  · rfl
  split <;> rfl

theorem Holds.anonymize (h : Holds sure s qs) (hkey : key ≠ MAXKEY) (kind : Kind) :
    Holds sure (s.anonymize kind key).1 (fun k => qs k ++ if k = kind then [key] else []) ∧
      (kind.Known sure → kind.rename (asked kind.fixed (qs kind ++ [key])) key = some (s.anonymize kind key).2) := by
  refine ⟨⟨fun k hknown => ?_, fun k hknown => ?_, ?_, h.words⟩, fun hknown => ?_⟩
  · show Represents k (Function.update s.maps kind _ k) _
    by_cases hk : k = kind
    · subst hk
      rw [Function.update_self, if_pos rfl, asked_concat]
      exact ((h.maps k hknown).anonymize hkey).1
    · rw [Function.update_of_ne hk, if_neg hk, List.append_nil]
      exact h.maps k hknown
  · show (Function.update s.maps kind _ k).retied = false
    by_cases hk : k = kind
    · subst hk
      rw [Function.update_self, Map.anonymize_retied]
      exact h.once k hknown
    · rw [Function.update_of_ne hk]
      exact h.once k hknown
  · show (Function.update s.maps kind _ .fileid).Alnum
    by_cases hk : Kind.fileid = kind
    · subst hk
      rw [Function.update_self]
      exact h.alnum.anonymize
    · rw [Function.update_of_ne hk]
      exact h.alnum
  · rw [asked_concat]
    exact ((h.maps kind hknown).anonymize hkey).2

theorem Kind.known_of_ne (h : kind ≠ .fileid) : kind.Known sure := fun hk => absurd hk h

theorem known_word : Kind.word.Known sure := Kind.known_of_ne (by decide)

theorem known_host : Kind.host.Known sure := Kind.known_of_ne (by decide)

theorem Holds.subword (h : Holds sure s qs) (hkey : key ≠ MAXKEY) :
    Holds sure (anonymizeSubword s key).1 (fun k => qs k ++ if k = .word then [key] else []) ∧
      Kind.word.rename (asked Kind.word.fixed (qs .word ++ [key])) key = some (anonymizeSubword s key).2 := by
  unfold anonymizeSubword
  rcases hw : s.unmappedWords key with _ | v
  · exact (h.anonymize hkey .word).imp_right (· known_word)
  · rw [h.words] at hw
    refine ⟨⟨fun k hknown => ?_, h.once, h.alnum, h.words⟩, rename_of_fixed hw⟩
    by_cases hk : k = .word
    · subst hk
      have hask : ask Kind.word.fixed (asked Kind.word.fixed (qs .word)) key = asked Kind.word.fixed (qs .word) :=
        ask_of_some (rename_of_fixed hw : Kind.word.rename _ key = some v)
      rw [if_pos rfl, asked_concat, hask]
      exact h.maps .word known_word
    · rw [if_neg hk, List.append_nil]
      exact h.maps k hknown

theorem Holds.parts {parts : List Text} (h : Holds sure s qs) (hkeys : MAXKEY ∉ parts) :
    Holds sure (anonymizeParts s parts).1 (fun k => qs k ++ if k = .word then parts else []) ∧
      List.Forall₂ (fun key v => Kind.word.rename (asked Kind.word.fixed (qs .word ++ parts)) key = some v)
        parts (anonymizeParts s parts).2 := by
  induction parts generalizing s qs with
  | nil => exact ⟨by simpa [anonymizeParts] using h, List.Forall₂.nil⟩
  | cons part parts ih =>
    rw [List.mem_cons, not_or] at hkeys
    obtain ⟨h₁, hname⟩ := h.subword (Ne.symm hkeys.1)
    obtain ⟨h₂, hnames⟩ := ih h₁ hkeys.2
    have hjoin : (fun k => (qs k ++ if k = Kind.word then [part] else []) ++ if k = Kind.word then parts else []) =
        fun k => qs k ++ if k = Kind.word then part :: parts else [] := by
      funext k
      split <;> simp
    rw [hjoin] at h₂
    simp only [if_true, List.append_assoc, List.singleton_append] at hnames
    refine ⟨h₂, List.Forall₂.cons ?_ hnames⟩
    have hlater := rename_foldl_of_some parts hname
    rw [← asked_append, List.append_assoc, List.singleton_append] at hlater
    exact hlater

/-! ## Restarts keep it -/

theorem Map.tie_untied (found : Hash) (h : m.ctl = false) : m.tie found = { m with ctl := true } := by
  rw [Map.tie, h]
  rfl

theorem Filed.resume (h : Filed kind m.db ks) (hc : ∀ k v, m.cache k = some v → k ≠ MAXKEY ∧ m.db k = some v) :
    Represents kind (m.resume kind.start) ks := by
  rw [Map.resume, h.stored]
  exact ⟨h, number_decimal _, hc⟩

theorem Map.resume_retied (start : Nat) (m : Map) : (m.resume start).retied = m.retied := by
  unfold Map.resume
  split <;> rfl

theorem Represents.close (h : Represents kind m ks) : Represents kind m.close ks := by
  unfold Map.close
  split
  · refine ⟨⟨?_, fun k hk => ?_⟩, h.counter, fun k v hk => ?_⟩
    · dsimp only
      rw [Hash.store_self, h.counter]
    · dsimp only
      rw [Hash.store_of_ne hk]
      exact h.filed.named k hk
    · dsimp only
      obtain ⟨hk', hv⟩ := h.cached k v hk
      exact ⟨hk', by rw [Hash.store_of_ne hk', hv]⟩
  · exact h

theorem Represents.initialize (h : Represents kind m ks) : Represents kind { m with db := m.db.storeAll kind.unmapped } ks := by
  refine ⟨⟨?_, fun k hk => ?_⟩, h.counter, fun k v hk => ?_⟩
  · dsimp only
    rw [Hash.storeAll_apply, if_neg kind.maxkey_notMem, h.filed.stored]
  · dsimp only
    rw [Hash.storeAll_apply]
    split
    · next hw => exact (rename_of_fixed (Kind.fixed_eq_some.mpr ⟨hw, rfl⟩)).symm
    · exact h.filed.named k hk
  · obtain ⟨hk', hv⟩ := h.cached k v hk
    refine ⟨hk', ?_⟩
    dsimp only
    rw [Hash.storeAll_apply]
    split
    · next hw =>
      rw [h.filed.named k hk'] at hv
      rw [← hv]
      exact (rename_of_fixed (Kind.fixed_eq_some.mpr ⟨hw, rfl⟩)).symm
    · exact hv

theorem closeMapFiles_maps (h : Holds sure s qs) (hknown : kind.Known sure) :
    Represents kind ((closeMapFiles s).maps kind) (asked kind.fixed (qs kind)) := by
  cases kind with
  | fileid => exact h.maps .fileid hknown
  | word | host | uid | gid => exact (h.maps _ hknown).close

theorem Map.close_retied (m : Map) : m.close.retied = m.retied := by
  unfold Map.close
  split <;> rfl

theorem closeMapFiles_retied (s : State) (kind : Kind) : ((closeMapFiles s).maps kind).retied = (s.maps kind).retied := by
  cases kind with
  | fileid => rfl
  | word | host | uid | gid => exact Map.close_retied _

theorem closeMapFiles_ctl (s : State) (h : kind ≠ .fileid) : ((closeMapFiles s).maps kind).ctl = false := by
  have closed : ∀ m : Map, m.close.ctl = false := by
    intro m
    unfold Map.close
    split
    · rfl
    · next hctl => exact Bool.eq_false_of_not_eq_true hctl
  cases kind with
  | fileid => exact absurd rfl h
  | word | host | uid | gid => exact closed _

theorem storeAll_words {h : Hash} (hh : ∀ k, h k = none ∨ h k = Kind.word.fixed k) : h.storeAll UnmappedWords = Kind.word.fixed := by
  funext k
  rw [Hash.storeAll_apply, Kind.fixed]
  split
  · next hk => rw [if_pos (show k ∈ Kind.word.unmapped from hk)]
  · next hk =>
    rw [if_neg (show k ∉ Kind.word.unmapped from hk)]
    rcases hh k with h0 | h0
    · exact h0
    · rw [h0, Kind.fixed, if_neg (show k ∉ Kind.word.unmapped from hk)]

/-- A map that is known is untied by then, and has what was stored. -/
theorem Holds.process (h : Holds sure s qs) (r : Restart) (hknown : kind.Known (sure ∧ r.exit = true)) :
    ((r.process (closeMapFiles s)).maps kind).ctl = false ∧ ((r.process (closeMapFiles s)).maps kind).retied = false ∧
      Filed kind ((r.process (closeMapFiles s)).maps kind).db (asked kind.fixed (qs kind)) ∧
      ∀ k v, ((r.process (closeMapFiles s)).maps kind).cache k = some v →
        k ≠ MAXKEY ∧ ((r.process (closeMapFiles s)).maps kind).db k = some v := by
  have hsure : kind.Known sure := fun hk => (hknown hk).1
  have hclosed := closeMapFiles_maps h hsure
  have honce : ((closeMapFiles s).maps kind).retied = false := (closeMapFiles_retied s kind).trans (h.once kind hsure)
  unfold Restart.process
  by_cases hexit : r.exit = true
  · rw [if_pos hexit]
    have hfiles : (closeMapFiles s).files r.found kind = ((closeMapFiles s).maps kind).db := by
      rw [State.files, honce]
      rfl
    refine ⟨rfl, rfl, ?_, fun k v hk => absurd hk (Option.some_ne_none v).symm⟩
    show Filed kind ((closeMapFiles s).files r.found kind) _
    rw [hfiles]
    exact hclosed.filed
  · rw [if_neg hexit]
    exact ⟨closeMapFiles_ctl s fun hk => hexit (hknown hk).2, honce, hclosed.filed, hclosed.cached⟩

theorem alnum_process (h : (s.maps .fileid).Alnum) (r : Restart) : ((r.process (closeMapFiles s)).maps .fileid).Alnum := by
  unfold Restart.process
  split
  · intro k v hk
    rcases hk with hk | hk
    · change (if (s.maps .fileid).retied then r.found else (s.maps .fileid).db) k = some v at hk
      split at hk
      · exact r.alnum k v hk
      · exact h k v (Or.inl hk)
    · exact absurd hk (Option.some_ne_none v).symm
  · exact h

theorem Map.Alnum.tie (h : m.Alnum) (r : Restart) : (m.tie r.found).Alnum := by
  unfold Map.tie
  split
  · exact fun k v hk => hk.elim (r.alnum k v) fun hk => h k v (Or.inr hk)
  · exact h

theorem Map.Alnum.resume (h : m.Alnum) (start : Nat) : (m.resume start).Alnum := by
  unfold Map.resume
  split
  · exact h
  · intro k v hk
    rcases hk with hk | hk
    · dsimp only at hk
      by_cases hkk : k = MAXKEY
      · rw [hkk, Hash.store_self] at hk
        exact Option.some_inj.mp hk ▸ alnum_digits (by decide) (by decide)
      · rw [Hash.store_of_ne hkk] at hk
        exact h k v (Or.inl hk)
    · exact h k v (Or.inr hk)

theorem Holds.restart (h : Holds sure s qs) (base : Text) (r : Restart) : Holds (sure ∧ r.exit = true) (s.restart base r) qs := by
  refine ⟨fun kind hknown => ?_, fun kind hknown => ?_, ?_, ?_⟩
  · obtain ⟨hctl, -, hfiled, hcached⟩ := h.process r hknown
    refine Represents.initialize (m := (((r.process (closeMapFiles s)).maps kind).tie r.found).resume kind.start) ?_
    rw [Map.tie_untied _ hctl]
    exact Filed.resume (m := { (r.process (closeMapFiles s)).maps kind with ctl := true }) hfiled hcached
  · obtain ⟨hctl, honce, -, -⟩ := h.process r hknown
    show ((((r.process (closeMapFiles s)).maps kind).tie r.found).resume kind.start).retied = false
    rw [Map.resume_retied, Map.tie_untied _ hctl]
    exact honce
  · exact ((alnum_process h.alnum r).tie r).resume _
  · apply storeAll_words
    intro k
    show (r.process (closeMapFiles s)).unmappedWords k = none ∨ _
    unfold Restart.process
    split
    · exact Or.inl rfl
    · exact Or.inr (congrFun h.words k)

theorem Holds.mono {sure' : Prop} (h : Holds sure s qs) (hsure : sure' → sure) : Holds sure' s qs :=
  ⟨fun kind hknown => h.maps kind fun hk => hsure (hknown hk), fun kind hknown => h.once kind fun hk => hsure (hknown hk),
    h.alnum, h.words⟩

/-- The first files. -/
theorem reopen_boot (base : Text) (r : Restart) : (State.boot fun _ _ => none).reopen base r = State.first base := by
  obtain ⟨exit, found, halnum⟩ := r
  cases exit <;> rfl

theorem holds_first (base : Text) : Holds True (State.first base) fun _ => [] := by
  have hboot : (⟨fun _ => none, fun _ => none, 0, true, false⟩ : Map).Alnum := fun k v hk =>
    absurd (hk.elim id id) (Option.some_ne_none v).symm
  refine ⟨fun kind _ => ⟨⟨?_, fun k hk => ?_⟩, rfl, fun k v hk => absurd hk (Option.some_ne_none v).symm⟩, fun kind _ => rfl,
    hboot.resume 101000, storeAll_words fun k => Or.inl rfl⟩
  · show (Hash.store _ MAXKEY (decimal kind.start)).storeAll kind.unmapped MAXKEY = _
    rw [Hash.storeAll_apply, if_neg kind.maxkey_notMem, Hash.store_self]
    rfl
  · show (Hash.store _ MAXKEY (decimal kind.start)).storeAll kind.unmapped k = _
    rw [Hash.storeAll_apply]
    split
    · next hw => exact (rename_of_fixed (Kind.fixed_eq_some.mpr ⟨hw, rfl⟩)).symm
    · next hw =>
      have hnone : kind.rename [] k = none := rename_eq_none.mpr ⟨if_neg hw, List.not_mem_nil⟩
      rw [Hash.store_of_ne hk]
      exact hnone.symm

/-! ## Runs keep it -/

/-- What a run logged: of each kind the keys asked for, each with the name the maps hold for it at the end. -/
structure Logged (sure : Prop) (log : List Entry) (as qs : Kind → List Text) : Prop where
  keys : ∀ kind, (names kind log).map Prod.fst = as kind
  named : ∀ kind, kind.Known sure → ∀ p ∈ names kind log, kind.rename (asked kind.fixed (qs kind)) p.1 = some p.2

theorem names_append (kind : Kind) (log log' : List Entry) : names kind (log ++ log') = names kind log ++ names kind log' := by
  rw [names, List.filter_append, List.map_append]
  rfl

theorem names_singleton (kind k : Kind) (key v : Text) : names kind [⟨k, key, v⟩] = if kind = k then [(key, v)] else [] := by
  by_cases h : kind = k
  · simp [names, h]
  · simp [names, h, Ne.symm h]

theorem names_zipWith (kind : Kind) (parts vs : List Text) :
    names kind (List.zipWith (Entry.mk .word) parts vs) = if kind = .word then parts.zip vs else [] := by
  induction parts generalizing vs with
  | nil => simp [names]
  | cons part parts ih =>
    cases vs with
    | nil => simp [names]
    | cons v vs =>
      rw [List.zipWith_cons_cons, ← List.singleton_append, names_append, names_singleton, ih, List.zip_cons_cons]
      split <;> rfl

theorem Logged.single (k : Kind) {key v : Text} {qs : Kind → List Text}
    (h : k.Known sure → k.rename (asked k.fixed (qs k)) key = some v) :
    Logged sure [⟨k, key, v⟩] (fun kind => if kind = k then [key] else []) qs := by
  refine ⟨fun kind => ?_, fun kind hknown p hp => ?_⟩
  · rw [names_singleton]
    split <;> rfl
  · rw [names_singleton] at hp
    split at hp
    · next hk =>
      subst hk
      rw [List.mem_singleton.mp hp]
      exact h hknown
    · cases hp

theorem Logged.parts {parts vs : List Text} {qs : Kind → List Text}
    (h : List.Forall₂ (fun key v => Kind.word.rename (asked Kind.word.fixed (qs .word)) key = some v) parts vs) :
    Logged sure (List.zipWith (Entry.mk .word) parts vs) (fun kind => if kind = .word then parts else []) qs := by
  refine ⟨fun kind => ?_, fun kind _ p hp => ?_⟩
  · rw [names_zipWith]
    split
    · exact List.map_fst_zip h.length_eq.le
    · rfl
  · rw [names_zipWith] at hp
    split at hp
    · next hk =>
      subst hk
      exact List.forall₂_iff_zip.mp h |>.2 hp
    · cases hp

/-- The maps are opened once in the process. -/
def Event.Once : Event → Prop
  | .restart r => r.exit = true
  | _ => True

theorem step_holds {e : Event} (base : Text) (h : Holds sure s qs) (he : ∀ kind, MAXKEY ∉ e.asks kind) :
    Holds (sure ∧ e.Once) (s.step base e).1 (fun kind => qs kind ++ e.asks kind) ∧
      Logged (sure ∧ e.Once) (s.step base e).2 (e.asks ·) fun kind => qs kind ++ e.asks kind := by
  have lookup : ∀ (k : Kind) (key : Text), MAXKEY ∉ (if k = k then [key] else []) →
      Holds (sure ∧ True) (s.anonymize k key).1 (fun kind => qs kind ++ if kind = k then [key] else []) ∧
        Logged (sure ∧ True) [⟨k, key, (s.anonymize k key).2⟩] (fun kind => if kind = k then [key] else [])
          fun kind => qs kind ++ if kind = k then [key] else [] := by
    intro k key hk
    rw [if_pos rfl, List.mem_singleton] at hk
    obtain ⟨hm, hname⟩ := h.anonymize (Ne.symm hk) k
    refine ⟨hm.mono And.left, Logged.single k fun hknown => ?_⟩
    rw [if_pos rfl]
    exact hname fun hk => (hknown hk).1
  cases e with
  | word w =>
    have hkeys : MAXKEY ∉ split '.' w := he .word
    obtain ⟨hm, hnames⟩ := h.parts hkeys
    exact ⟨hm.mono And.left, Logged.parts hnames⟩
  | host t => exact lookup .host t (he .host)
  | uid t => exact lookup .uid t (he .uid)
  | gid t => exact lookup .gid t (he .gid)
  | fileid t => exact lookup .fileid t (he .fileid)
  | restart r =>
    simp only [State.step, Event.asks, List.append_nil]
    exact ⟨h.restart base r, fun kind => rfl, fun kind _ p hp => absurd hp List.not_mem_nil⟩

theorem run_holds (base : Text) (es : List Event) : ∀ {s : State} {qs : Kind → List Text} {sure : Prop}, Holds sure s qs →
    (∀ kind, MAXKEY ∉ asks kind es) →
    Holds (sure ∧ ∀ e ∈ es, e.Once) (s.run base es).1 (fun kind => qs kind ++ asks kind es) ∧
      Logged (sure ∧ ∀ e ∈ es, e.Once) (s.run base es).2 (asks · es) fun kind => qs kind ++ asks kind es := by
  induction es with
  | nil =>
    intro s qs sure h _
    simp only [asks, List.flatMap_nil, List.append_nil]
    exact ⟨h.mono And.left, fun kind => rfl, fun kind _ p hp => absurd hp List.not_mem_nil⟩
  | cons e es ih =>
    intro s qs sure h hes
    simp only [asks, List.flatMap_cons, List.mem_append, not_or] at hes
    obtain ⟨h₁, hlog₁⟩ := step_holds base h fun kind => (hes kind).1
    obtain ⟨h₂, hlog₂⟩ := ih h₁ fun kind => (hes kind).2
    simp only [List.append_assoc] at h₂ hlog₂
    rw [List.forall_mem_cons, ← and_assoc]
    refine ⟨h₂, fun kind => ?_, fun kind hknown p hp => ?_⟩
    · show (names kind (_ ++ _)).map Prod.fst = _
      rw [names_append, List.map_append, hlog₁.keys, hlog₂.keys]
      rfl
    · rw [State.run, names_append] at hp
      rcases List.mem_append.mp hp with hp | hp
      · have hlater := rename_foldl_of_some (asks kind es) (hlog₁.named kind (fun hk => (hknown hk).1) p hp)
        rw [← asked_append, List.append_assoc] at hlater
        exact hlater
      · exact hlog₂.named kind hknown p hp

/-- At every moment of every run the maps hold the naming of what was asked for, and gave names from it;
    of file ids, when no process opens them twice. -/
theorem run_represents (base : Text) {es : List Event} (hes : ∀ kind, MAXKEY ∉ asks kind es) :
    Holds (∀ e ∈ es, e.Once) ((State.first base).run base es).1 (asks · es) ∧
      Logged (∀ e ∈ es, e.Once) ((State.first base).run base es).2 (asks · es) (asks · es) := by
  have h := run_holds base es (holds_first base) hes
  simp only [List.nil_append, true_and] at h
  exact h

end Nfsdump.Anonymize
