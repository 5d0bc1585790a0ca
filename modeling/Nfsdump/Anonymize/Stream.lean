/-
  Nfsdump.Anonymize.Stream — a dump in, the same dump with its hosts, ids and names replaced
  out (scripts/anonymize.pl, `anonymizeStream` and `anonymizeIADDR`), file by file as
  nfs-zipper.pl and nfs-anon.pl do it.

  A line is a head of eight words and a rest. What stands behind a label of `%Interesting`
  in the rest is replaced, labels and values taken in turn; addresses are cut at their dots.
-/

import Nfsdump.Anonymize.Paths
import Nfsdump.Decode.Lines

namespace Nfsdump.Anonymize

open Renaming Words
open Decode (isBlank Nonblank)

/-! ## Splitting a line -/

/-- The fields of a text that begins with no blank. -/
def splitLimit : Nat → Text → List Text
  | 0, _ => []
  | 1, t => [t]
  | n + 2, t =>
    let rest := t.dropWhile (!isBlank ·)
    if rest = [] then [t] else t.takeWhile (!isBlank ·) :: splitLimit (n + 1) (rest.dropWhile isBlank)

/-- Perl's `split (' ', $l, 9)`, where that gives nine fields. -/
structure Split where
  time : Text
  src_addr : Text
  des_addr : Text
  xpt : Text
  proto : Text
  xid : Text
  funcnum : Text
  funcname : Text
  rest : Text
  deriving DecidableEq

def splitLine (l : Text) : Option Split :=
  match splitLimit 9 (l.dropWhile isBlank) with
  | [time, src_addr, des_addr, xpt, proto, xid, funcnum, funcname, rest] =>
    some ⟨time, src_addr, des_addr, xpt, proto, xid, funcnum, funcname, rest⟩
  | _ => none

/-- `s/pat.*$//` in a line. -/
def cutAt (pat : Text) : Text → Text
  | [] => []
  | c :: cs => if pat.isPrefixOf (c :: cs) then [] else c :: cutAt pat cs

/-- Without the dash and the digits at the end. -/
def stripIndex (name : Text) : Text :=
  let front := name.rdropWhile Char.isDigit
  if front.length < name.length ∧ front.getLast? = some '-' then front.dropLast else name

def Split.isCall (p : Split) : Bool := p.proto = "C3".toList ∨ p.proto = "C2".toList

/-- What is left of the rest in front of the fields that are only there for debugging. -/
def Split.kept (p : Split) : List Text :=
  words isBlank (cutAt (if p.isCall then " con = " else " status=").toList p.rest)

/-- `$status`, printed as nothing where there is none. -/
def Split.status (p : Split) : Text := if p.isCall then [] else p.kept.headD []

def Split.data (p : Split) : List Text := if p.isCall then p.kept else p.kept.tail

def defaultCallTrailer : Text := "con = XXX len = XXX".toList

def defaultRespTrailer : Text := "status=XXX pl = XXX con = XXX len = XXX".toList

/-- The line that is written, with other addresses and other data. -/
def Split.print (p : Split) (src_addr des_addr : Text) (data : List Text) : Text :=
  [p.time, src_addr, des_addr, p.xpt, p.proto, p.xid, p.funcnum, p.funcname].flatMap (· ++ [' ']) ++
    (if p.isCall then [] else p.status ++ [' ']) ++ join ' ' data ++ ' ' ::
      (if p.isCall then defaultCallTrailer else defaultRespTrailer) ++ ['\n']

def funnyLine (l : Text) : Text := "XX Funny line (".toList ++ l ++ [')', '\n']

/-! ## anonymizeStream -/

/-- The maps, and `%iaddrMapDBcache`. -/
structure Session where
  state : State
  iaddrMapDBcache : Hash

def hostOf (iaddr : Text) : Text := (split '.' iaddr).getD 0 []

def portOf (iaddr : Text) : Text := (split '.' iaddr).getD 1 []

def anonymizeIADDR (s : Session) (iaddr : Text) : Session × Text :=
  match s.iaddrMapDBcache iaddr with
  | some tv => (s, tv)
  | none =>
    let r := anonymizeHOST s.state (hostOf iaddr)
    let new_iaddr := r.2 ++ '.' :: portOf iaddr
    (⟨r.1, s.iaddrMapDBcache.store iaddr new_iaddr⟩, new_iaddr)

/-- The server's address first. -/
def anonymizeAddrs (s : Session) (p : Split) : Session × Text × Text :=
  if p.isCall then
    let des := anonymizeIADDR s p.des_addr
    let src := anonymizeIADDR des.1 p.src_addr
    (src.1, src.2, des.2)
  else
    let src := anonymizeIADDR s p.src_addr
    let des := anonymizeIADDR src.1 p.des_addr
    (des.1, src.2, des.2)

def Interesting : List Text :=
  ["euid", "uid", "egid", "gid", "name", "name2", "fn", "fn2", "sdata", "fileid"].map String.toList

def quote (t : Text) : Text := '"' :: (t ++ ['"'])

def unquote (val : Text) : Text := val.filter (· ≠ '"')

/-- The value behind a label of `%Interesting`. -/
def anonymizeValue (s : State) (name val : Text) : State × Text :=
  if name = "euid".toList ∨ name = "uid".toList then anonymizeUID s val
  else if name = "egid".toList ∨ name = "gid".toList then anonymizeGID s val
  else if name = "fileid".toList then anonymizeFILEID s val
  else
    let r := anonymizePATH s (unquote val)
    (r.1, quote r.2)

/-- A label without a value behind it gets one. -/
def anonymizeData : State → List Text → State × List Text
  | s, label :: val :: data =>
    if stripIndex label ∈ Interesting then
      let r := anonymizeValue s (stripIndex label) val
      let rest := anonymizeData r.1 data
      (rest.1, label :: r.2 :: rest.2)
    else
      let rest := anonymizeData s data
      (rest.1, label :: val :: rest.2)
  | s, [label] =>
    if stripIndex label ∈ Interesting then
      let r := anonymizeValue s (stripIndex label) []
      (r.1, [label, r.2])
    else (s, [label])
  | s, [] => (s, [])

/-- One line as it is read, its line break with it, and what is written for it. -/
def anonymizeLine (s : Session) (l : Text) : Session × Text :=
  if !(l.head?.any Char.isDigit) then (s, [])
  else
    match splitLine l.dropLast with
    | none => (s, funnyLine l.dropLast)
    | some p =>
      let addrs := anonymizeAddrs s p
      let data := anonymizeData addrs.1.state p.data
      ({ addrs.1 with state := data.1 }, p.print addrs.2.1 addrs.2.2 data.2)

def anonymizeStream : Session → List Text → Session × Text
  | s, [] => (s, [])
  | s, l :: ls =>
    let r := anonymizeLine s l
    let rest := anonymizeStream r.1 ls
    (rest.1, r.2 ++ rest.2)

/-- `<$in_stream>`: the lines of a file, each with its line break. -/
def readLines : Text → List Text
  | [] => []
  | c :: cs =>
    if c = '\n' then ['\n'] :: readLines cs
    else
      match readLines cs with
      | [] => [[c]]
      | l :: ls => (c :: l) :: ls

/-- A process that has just started, with no files yet. -/
def Session.boot : Session := ⟨State.boot fun _ _ => none, fun _ => none⟩

def Session.close (s : Session) : Session := { s with state := closeMapFiles s.state }

def Session.reopen (base : Text) (r : Restart) (closed : Session) : Session :=
  ⟨closed.state.reopen base r, if r.exit then fun _ => none else closed.iaddrMapDBcache⟩

/-- Between two files the maps are closed and opened again. -/
def Session.restart (base : Text) (r : Restart) (s : Session) : Session := s.close.reopen base r

def Session.first (base : Text) : Session := ⟨State.first base, fun _ => none⟩

/-- `doAnonZip` for one file after the other, and in which process the next one is read. -/
def anonymizeFiles (base : Text) : Session → List (Text × Restart) → List Text
  | _, [] => []
  | s, (file, next) :: files =>
    let r := anonymizeStream s (readLines file)
    r.2 :: anonymizeFiles base (r.1.restart base next) files

end Nfsdump.Anonymize
