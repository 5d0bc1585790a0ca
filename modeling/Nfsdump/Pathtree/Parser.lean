/-
  Nfsdump.Pathtree.Parser — `Parser` of nfsdump.func.js: the rows of a dump in, pairs of a
  call and its reply out.

  A row is what the csv module makes of a line, an array of strings. `calls` holds the last
  call of each client and XID until a reply takes it or a later call finds it too old.
  `parseInt` may yield NaN, which compares with nothing.
-/

import Nfsdump.Lib.Words

namespace Nfsdump.Pathtree

/-- A string. -/
abbrev Cell := List Char

abbrev Row := List Cell

namespace OFFSET

def TIME : Nat := 0
def SRC : Nat := 1
def DST : Nat := 2
def DIRECTION : Nat := 4
def XID : Nat := 5
def OP : Nat := 7
def PARAM_START : Nat := 8
def STATUS : Nat := 8
def RET_START : Nat := 9

end OFFSET

/-! ## Numbers -/

/-- A number, or NaN. -/
abbrev Num := Option Int

def Num.lt : Num → Num → Bool
  | some a, some b => a < b
  | _, _ => false

def Num.sub (a : Num) (b : Int) : Num := a.map (· - b)

def digitValue (c : Char) : Nat :=
  if c.isDigit then c.toNat - 48 else if 'a' ≤ c ∧ c ≤ 'f' then c.toNat - 87 else c.toNat - 55

def isHexDigit (c : Char) : Bool := c.isDigit || ('a' ≤ c && c ≤ 'f') || ('A' ≤ c && c ≤ 'F')

/-- The digits in front, to their base. -/
def parseDigits (base : Nat) (cs : Cell) : Num :=
  let digits := cs.takeWhile fun c => if base = 16 then isHexDigit c else c.isDigit
  if digits = [] then none else some (digits.foldl (fun n c => base * n + digitValue c) 0 : Nat)

/-- `parseInt (s)`. -/
def parseInt (s : Cell) : Num :=
  let unsigned : Cell → Num
    | '0' :: 'x' :: cs => parseDigits 16 cs
    | '0' :: 'X' :: cs => parseDigits 16 cs
    | cs => parseDigits 10 cs
  match s.dropWhile Char.isWhitespace with
  | '-' :: cs => (unsigned cs).map Neg.neg
  | '+' :: cs => unsigned cs
  | cs => unsigned cs

/-! ## Calls and replies -/

/-- A call's row, with its `timestamp`. -/
structure Call where
  row : Row
  timestamp : Num

/-- Options other than the defaults are not used. -/
structure Parser where
  calls : Cell → Option Call
  nextCleanup : Num

def callLifetime : Int := 15

def Parser.init : Parser := ⟨fun _ => none, some 0⟩

/-- `client + '.' + xid`. -/
def callKey (client xid : Cell) : Cell := client ++ '.' :: xid

def cell (row : Row) (i : Nat) : Cell := row.getD i []

/-- What `processReply` hands to `process`. -/
structure Matched where
  op : Cell
  call : Row
  reply : Row
  deriving DecidableEq

def Parser.cleanup (s : Parser) (timestamp : Num) : Parser :=
  if timestamp.lt s.nextCleanup then s
  else { calls := fun key => (s.calls key).filter fun c => !c.timestamp.lt (timestamp.sub callLifetime), nextCleanup := timestamp }

def Parser.processCall (s : Parser) (row : Row) : Parser :=
  let client := cell row OFFSET.SRC
  let xid := cell row OFFSET.XID
  let op := cell row OFFSET.OP
  if op = "unknown".toList then s
  else
    let timestamp := parseInt (cell row OFFSET.TIME)
    let s := s.cleanup timestamp
    { s with calls := fun key => if key = callKey client xid then some ⟨row, timestamp⟩ else s.calls key }

def Parser.processReply (s : Parser) (row : Row) : Parser × Option Matched :=
  let client := cell row OFFSET.DST
  let xid := cell row OFFSET.XID
  let op := cell row OFFSET.OP
  match s.calls (callKey client xid) with
  | none => (s, none)
  | some call =>
    ({ s with calls := fun key => if key = callKey client xid then none else s.calls key }, some ⟨op, call.row, row⟩)

def Parser.processRow (s : Parser) (row : Row) : Parser × Option Matched :=
  if row.length < OFFSET.PARAM_START then (s, none)
  else if cell row OFFSET.DIRECTION = "C3".toList then (s.processCall row, none)
  else if cell row OFFSET.DIRECTION = "R3".toList then s.processReply row
  else (s, none)

/-- What `process` is called with over the rows, in order. -/
def Parser.run (s : Parser) : List Row → List Matched
  | [] => []
  | row :: rows => (s.processRow row).2.toList ++ (s.processRow row).1.run rows

end Nfsdump.Pathtree
