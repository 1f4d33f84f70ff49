import Mathlib.Tactic

/-!
# Lib/Ctype — character classes

`lib/ctype.c` and `include/sandix/ctype.h`: the table `__ctype`, one byte of class bits for each
character, run by run.
-/

namespace Sandix

/-- The code of a character. -/
def ascii (c : Char) : UInt8 := c.val.toUInt8

/-- The bytes of a string literal. -/
def literal (cs : List Char) : ℕ → UInt8 := fun i => (cs[i]?.map ascii).getD 0

abbrev ctypeU : ℕ := 0x01
abbrev ctypeL : ℕ := 0x02
abbrev ctypeD : ℕ := 0x04
abbrev ctypeC : ℕ := 0x08
abbrev ctypeP : ℕ := 0x10
abbrev ctypeS : ℕ := 0x20
abbrev ctypeX : ℕ := 0x40
abbrev ctypeSP : ℕ := 0x80

/-- `__ctype`, as runs of characters with the same bits. -/
def ctypeRuns : List (ℕ × ℕ) :=
  [(9, ctypeC), (5, ctypeC ||| ctypeS), (18, ctypeC), (1, ctypeS ||| ctypeSP), (15, ctypeP),
    (10, ctypeD), (7, ctypeP), (6, ctypeU ||| ctypeX), (20, ctypeU), (6, ctypeP),
    (6, ctypeL ||| ctypeX), (20, ctypeL), (4, ctypeP), (1, ctypeC), (32, 0),
    (1, ctypeS ||| ctypeSP), (31, ctypeP), (23, ctypeU), (1, ctypeP), (7, ctypeU), (24, ctypeL),
    (1, ctypeP), (8, ctypeL)]

/-- The entry of character `c` in a table given by runs. -/
def runEntry : List (ℕ × ℕ) → ℕ → ℕ
  | [], _ => 0
  | (n, m) :: rest, c => if c < n then m else runEntry rest (c - n)

/-- `__ismask`. -/
def ismask (c : UInt8) : ℕ := runEntry ctypeRuns c.toNat

def iscntrl (c : UInt8) : Bool := ismask c &&& ctypeC ≠ 0

def isdigit (c : UInt8) : Bool := ismask c &&& ctypeD ≠ 0

def isalnum (c : UInt8) : Bool := ismask c &&& (ctypeU ||| ctypeL ||| ctypeD) ≠ 0

def isprint (c : UInt8) : Bool :=
  ismask c &&& (ctypeP ||| ctypeU ||| ctypeL ||| ctypeD ||| ctypeSP) ≠ 0

def islower (c : UInt8) : Bool := ismask c &&& ctypeL ≠ 0

def isupper (c : UInt8) : Bool := ismask c &&& ctypeU ≠ 0

/-- `tolower`. -/
def tolower (c : UInt8) : UInt8 := if isupper c then c + 32 else c

/-- `_tolower`. -/
def fastTolower (c : UInt8) : UInt8 := c ||| 0x20

/-- `toupper`. -/
def toupper (c : UInt8) : UInt8 := if islower c then c - 32 else c

end Sandix
