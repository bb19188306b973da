/-
  HotPath.Digest

  Digests of keys. A table places its entries by the digests of their keys, so
  keys that a table holds together should differ in their digests. Only the
  time that a table takes depends on it.
-/
import HotPath.Location
import HotPath.Value.Basic

namespace HotPath

/-- Types whose elements have digests. -/
class Digest (κ : Type) where
  /-- The digest of a key. -/
  digest : κ → Nat

export Digest (digest)

namespace Digest

/-- Digests that are made from others are smaller than this prime. -/
def modulus : Nat := 65521

/-- One digest for two. -/
def mix (a b : Nat) : Nat := (31 * a + b) % modulus

/-- One digest for the elements of a list. -/
def mixAll {κ : Type} (f : κ → Nat) (ks : List κ) : Nat :=
  ks.foldl (fun a k => mix a (f k)) 7

end Digest

open Digest

instance : Digest Nat := ⟨fun n => n⟩

instance : Digest Location := ⟨fun l => mix l.func l.pc⟩

/-- The digest of the outer layers of a value. What lies deeper does not count,
so a value whose tree is much larger than its storage takes no longer. -/
def Value.digestTo : (layers : Nat) → Value → Nat
  | 0, _ => 0
  | _ + 1, .nil => 1
  | _ + 1, .int n => n.toUInt64.toNat % modulus
  | layers + 1, .tuple fields => mixAll (digestTo layers) fields

instance : Digest Value := ⟨Value.digestTo 3⟩

end HotPath
