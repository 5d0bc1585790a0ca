/-
  Nfsdump.Pathtree.FhParent — `ExtractFhParent.process` of fhparent.js: which parent
  relations a call and its reply give.

  Parameters are picked from the two rows by index; one that a row does not have is
  undefined, and is written as an empty cell. What is written of the others is their UTF-8.
-/

import Nfsdump.Pathtree.Csv

namespace Nfsdump.Pathtree

/-- A row of the output; `none` is undefined. -/
structure FhRow where
  fh : Option Cell
  name : Option Cell
  parent : Option Cell
  deriving DecidableEq, Repr

/-- The bytes that the cells are written as. -/
def FhRow.written (r : FhRow) : FhRow := ⟨r.fh.map encoded, r.name.map encoded, r.parent.map encoded⟩

/-- A label `name-0` or `fh-0`. -/
def numbered (label : String) (index : Nat) : Cell := label.toList ++ (Nat.toDigits 10 index)

/-- `forEachKV` with the callback of `readdirp`. -/
def listed (parent : Option Cell) : List Cell → Nat → Cell → List FhRow
  | key :: value :: rest, currentIndex, currentName =>
    if key = numbered "name-" currentIndex then listed parent rest currentIndex value
    else if key = numbered "fh-" currentIndex then
      (if currentName ≠ ".".toList ∧ currentName ≠ "..".toList then [⟨some value, some currentName, parent⟩] else []) ++
        listed parent rest (currentIndex + 1) currentName
    else listed parent rest currentIndex currentName
  | _, _, _ => []

def process (m : Matched) : List FhRow :=
  let status := m.reply[OFFSET.STATUS]?
  let callp := m.call.drop OFFSET.PARAM_START
  let replyp := m.reply.drop OFFSET.RET_START
  let ok (rows : List FhRow) : List FhRow := if status = some "OK".toList then rows else []
  if m.op = "mnt".toList then ok [⟨replyp[1]?, callp[0]?, some "MOUNTPOINT".toList⟩]
  else if m.op = "lookup".toList then ok [⟨replyp[1]?, callp[3]?, callp[1]?⟩]
  else if m.op = "readdirp".toList then ok (listed callp[1]? replyp 0 [])
  else if m.op = "create".toList ∨ m.op = "mkdir".toList ∨ m.op = "symlink".toList ∨ m.op = "mknod".toList then
    ok [⟨replyp[1]?, callp[3]?, callp[1]?⟩]
  else if m.op = "link".toList then ok [⟨callp[1]?, callp[5]?, callp[3]?⟩]
  else []

/-- The rows fhparent.js writes for the rows of a dump. -/
def fhparent (rows : List Row) : List FhRow := (Parser.init.run rows).flatMap process

end Nfsdump.Pathtree
