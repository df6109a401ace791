import Std.Data.TreeSet
import Constituency.Error

/-!
# Packed children

The right-hand side of a rule is packed into one signed 32 bit key. A pair of nonterminals gives a
key from zero on, which also addresses the table of child pairs. With `V` nonterminals, the keys
from `-1` down to `1 - V` stand for a single nonterminal child, and the keys from `-V` down for
words.

* `Word32`: wrapping and checked 32 bit arithmetic, on whole numbers.
* `ShiftPacking`: the left child in the high bits, the right child in a field below it.
* `Packing.pack`, `Packing.packUnary`, `Packing.packLexical` and their inverse `Packing.unpack`.
* `Packing.isValid`: the keys that may stand in the table of child pairs.
-/

namespace Constituency
set_option autoImplicit false

/-! ## Words of 32 bits -/

namespace Word32

/-- The number between `-2 ^ 31` and `2 ^ 31 - 1` that agrees with `x` in its low 32 bits. -/
def wrap (x : Int) : Int := x.bmod (2 ^ 32)

/-- A result that has to lie between `-2 ^ 31` and `2 ^ 31 - 1`. -/
def check (x : Int) : Checked Int :=
  if -(2 ^ 31) ≤ x ∧ x < 2 ^ 31 then pure x else Checked.fault .overflow

def largest : Nat := 2 ^ 31 - 1

end Word32

/-- A packed right-hand side. -/
abbrev Key := Int

/-- What a key stands for. -/
inductive Unpacked where
  | pair (left right : Nat)
  | unary (child : Nat)
  | lexical (word : Nat)
  deriving DecidableEq

/-! ## Kinds -/

inductive PackingKind where
  /-- The right child gets a field as wide as the largest right child needs, with a sign bit. -/
  | leftShift
  /-- The key is `right * V + left`. -/
  | unfiltered
  /-- As `leftShift`, and only the pairs that some rule has are valid. -/
  | exactFilter
  deriving DecidableEq, Inhabited

def PackingKind.ofName : String → Except Error PackingKind
  | "left-shift" => .ok .leftShift
  | "default" => .ok .leftShift
  | "unfiltered" => .ok .unfiltered
  | "exact-filter" => .ok .exactFilter
  | "exact" => .ok .exactFilter
  | name => .error (.malformed (.unknownOption "packing function" name))

def PackingKind.name : PackingKind → String
  | leftShift => "left-shift"
  | unfiltered => "unfiltered"
  | exactFilter => "exact-filter"

/-! ## Shifted fields -/

/-- The left child stands `shift` bits up; the right child keeps its low `shift` bits. -/
structure ShiftPacking where
  nonterminals : Nat
  shift : Nat

namespace ShiftPacking

def size (s : ShiftPacking) : Nat := s.nonterminals * 2 ^ s.shift

def mask (s : ShiftPacking) : Nat := 2 ^ s.shift - 1

/-- The mask of a field of `shift` bits, made in words of 32 bits: one bit shifted up, less one. -/
def maskWord (shift : Nat) : Checked Int := Word32.check (Word32.wrap (2 ^ shift) - 1)

/-- The packing for right children below `rightStop`. Every key has to fit in 31 bits, and so does
the mask. -/
def forRightChildren (nonterminals rightStop : Nat) : Checked ShiftPacking :=
  let shift := bitLength (rightStop - 1) + 1
  if 32 ≤ shift ∨ Word32.largest < nonterminals * 2 ^ shift then
    Checked.fail (.packingOverflow nonterminals shift)
  else do
    let _ ← maskWord shift
    return ⟨nonterminals, shift⟩

def pack (s : ShiftPacking) (left right : Nat) : Key :=
  Word32.wrap (left * 2 ^ s.shift) + (right % 2 ^ s.shift : Nat)

/-- The right child of a key from zero on: the low field with its sign, as an unsigned word. -/
def rightChild (s : ShiftPacking) (key : Nat) : Nat :=
  (((key : Int).bmod (2 ^ s.shift)) % 2 ^ 32).toNat

end ShiftPacking

/-! ## Packings -/

inductive Packing where
  | leftShift (s : ShiftPacking)
  | unfiltered (nonterminals : Nat)
  | exactFilter (s : ShiftPacking) (pairs : Std.TreeSet Key)

namespace Packing

instance : Inhabited Packing := ⟨unfiltered 0⟩

def kind : Packing → PackingKind
  | leftShift _ => .leftShift
  | unfiltered _ => .unfiltered
  | exactFilter _ _ => .exactFilter

def nonterminals : Packing → Nat
  | leftShift s => s.nonterminals
  | unfiltered n => n
  | exactFilter s _ => s.nonterminals

def size : Packing → Nat
  | leftShift s => s.size
  | unfiltered n => n * n
  | exactFilter s _ => s.size

def shifted? : Packing → Option ShiftPacking
  | leftShift s => some s
  | unfiltered _ => none
  | exactFilter s _ => some s

def ofAllPairs (nonterminals : Nat) : Checked Packing :=
  if Word32.largest < nonterminals * nonterminals then
    Checked.fail (.packingOverflow nonterminals 0)
  else pure (unfiltered nonterminals)

/-- The packing of the given pairs only. The pairs are marked in blocks of 64 keys, and a pair
outside of all blocks cannot be marked. -/
def ofPairs (s : ShiftPacking) (pairs : List (Nat × Nat)) : Checked Packing := do
  let limit := (s.size + 63) / 64 * 64
  let keys ← pairs.foldlM (fun (keys : Std.TreeSet Key) (left, right) =>
    let key := s.pack left right
    if 0 ≤ key ∧ key < limit then pure (keys.insert key) else Checked.fault .outOfRange) ∅
  pure (exactFilter s keys)

/-- The packing of a kind, for right children below `rightStop` and the given pairs. -/
def make (kind : PackingKind) (nonterminals rightStop : Nat) (pairs : List (Nat × Nat)) :
    Checked Packing :=
  match kind with
  | .leftShift => return leftShift (← ShiftPacking.forRightChildren nonterminals rightStop)
  | .unfiltered => ofAllPairs nonterminals
  | .exactFilter => do ofPairs (← ShiftPacking.forRightChildren nonterminals rightStop) pairs

/-! ## Keys -/

def pack (p : Packing) (left right : Nat) : Checked Key :=
  match p with
  | leftShift s => pure (s.pack left right)
  | exactFilter s _ => pure (s.pack left right)
  | unfiltered n => do
    let high ← Word32.check (Word32.wrap right * n)
    Word32.check (high + Word32.wrap left)

def packUnary (child : Nat) : Checked Key := Word32.check (-Word32.wrap child)

/-- The key of a word. Words beyond the lexicon of a grammar may wrap around. -/
def packLexical (p : Packing) (word : Nat) : Key := Word32.wrap (-(p.nonterminals : Int) - word)

def unpackNegative (nonterminals : Nat) (key : Key) : Checked Unpacked :=
  if key ≤ -(nonterminals : Int) then do
    let magnitude ← Word32.check (-key)
    pure (.lexical (magnitude - nonterminals).toNat)
  else pure (.unary (-key).toNat)

def unpack (p : Packing) (key : Key) : Checked Unpacked :=
  if key < 0 then unpackNegative p.nonterminals key
  else
    match p with
    | leftShift s => pure (.pair (key.toNat / 2 ^ s.shift) (s.rightChild key.toNat))
    | exactFilter s _ => pure (.pair (key.toNat / 2 ^ s.shift) (s.rightChild key.toNat))
    | unfiltered n =>
      if n = 0 then Checked.fault .divisionByZero else pure (.pair (key.toNat % n) (key.toNat / n))

/-- Whether a key may stand in the table of child pairs. -/
def isValid (p : Packing) (key : Key) : Bool :=
  0 ≤ key && key < p.size &&
    (match p with
      | exactFilter _ pairs => pairs.contains key
      | _ => true)

end Packing
end Constituency
