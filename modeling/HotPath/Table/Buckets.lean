/-
  HotPath.Table.Buckets

  Where a table keeps its entries: lists of pairs, the buckets, at the leaves of
  a binary tree. The bits of a digest, from the lowest up, lead to one bucket.
  Changing the bucket of a digest changes that bucket only, though other digests
  may lead to it too.
-/

namespace HotPath

/-! ## Buckets -/

/-- Pairs of a key and a value. -/
abbrev Bucket (κ α : Type) := List (κ × α)

namespace Bucket

variable {κ α : Type} [DecidableEq κ]

/-- The value of a key. -/
def find? (k : κ) : Bucket κ α → Option α
  | [] => none
  | (k', v) :: rest => if k' = k then some v else find? k rest

/-- Replaces the value of a key, or adds a pair at the end. -/
def put (k : κ) (v : α) : Bucket κ α → Bucket κ α
  | [] => [(k, v)]
  | (k', v') :: rest => if k' = k then (k, v) :: rest else (k', v') :: put k v rest

/-- Removes a key. -/
def drop (k : κ) (b : Bucket κ α) : Bucket κ α := b.filter (fun e => e.1 ≠ k)

theorem find?_put (k l : κ) (v : α) (b : Bucket κ α) :
    find? l (put k v b) = if k = l then some v else find? l b := by
  induction b with
  | nil => simp [put, find?]
  | cons e b ih =>
    obtain ⟨k', v'⟩ := e
    by_cases hk : k' = k
    · subst hk
      simp only [put, if_true, find?]
      split <;> rfl
    · by_cases hl : k' = l
      · subst hl
        simp [put, find?, hk, Ne.symm hk]
      · simp [put, find?, hk, hl, ih]

theorem find?_drop (k l : κ) (b : Bucket κ α) :
    find? l (drop k b) = if k = l then none else find? l b := by
  unfold drop
  induction b with
  | nil => simp [find?]
  | cons e b ih =>
    obtain ⟨k', v'⟩ := e
    by_cases hk : k' = k
    · subst hk
      by_cases hl : k' = l
      · simpa [hl] using ih
      · simpa [hl, find?] using ih
    · by_cases hl : k' = l
      · subst hl
        simp [hk, find?, Ne.symm hk]
      · simpa [hk, hl, find?] using ih

end Bucket

/-! ## Trees of buckets -/

/-- A tree of buckets. -/
inductive Buckets (κ α : Type) where
  /-- All buckets from here on are empty. -/
  | empty
  | leaf (bucket : Bucket κ α)
  /-- The buckets of even digests, and those of odd ones. -/
  | node (even odd : Buckets κ α)

namespace Buckets

variable {κ α : Type}

/-- The bucket that a digest leads to. -/
def get : Buckets κ α → Nat → Bucket κ α
  | .empty, _ => []
  | .leaf b, _ => b
  | .node even odd, d => if d % 2 = 0 then even.get (d / 2) else odd.get (d / 2)

/-- A tree with one bucket at a depth. -/
def single (b : Bucket κ α) : (depth d : Nat) → Buckets κ α
  | 0, _ => .leaf b
  | n + 1, d =>
    if d % 2 = 0 then .node (single b n (d / 2)) .empty else .node .empty (single b n (d / 2))

/-- Changes the bucket that a digest leads to. New buckets go to a depth. -/
def modify (change : Bucket κ α → Bucket κ α) : Buckets κ α → (depth d : Nat) → Buckets κ α
  | .empty, depth, d => single (change []) depth d
  | .leaf b, _, _ => .leaf (change b)
  | .node even odd, depth, d =>
    if d % 2 = 0 then .node (even.modify change (depth - 1) (d / 2)) odd
    else .node even (odd.modify change (depth - 1) (d / 2))

theorem get_single_self (b : Bucket κ α) (depth d : Nat) : (single b depth d).get d = b := by
  induction depth generalizing d with
  | zero => rfl
  | succ n ih =>
    by_cases h : d % 2 = 0
    · simp [single, get, h, ih]
    · simp [single, get, h, ih]

theorem get_single (b : Bucket κ α) (depth d e : Nat) :
    (single b depth d).get e = [] ∨ (single b depth d).get e = b := by
  induction depth generalizing d e with
  | zero => exact .inr rfl
  | succ n ih =>
    by_cases h : d % 2 = 0 <;> by_cases h' : e % 2 = 0
    · simpa [single, get, h, h'] using ih (d / 2) (e / 2)
    · simp [single, get, h, h']
    · simp [single, get, h, h']
    · simpa [single, get, h, h'] using ih (d / 2) (e / 2)

/-- The bucket of the digest is changed. -/
theorem get_modify_self (change : Bucket κ α → Bucket κ α) (t : Buckets κ α) (depth d : Nat) :
    (t.modify change depth d).get d = change (t.get d) := by
  induction t generalizing depth d with
  | empty => exact get_single_self (change []) depth d
  | leaf b => rfl
  | node even odd ihEven ihOdd =>
    by_cases h : d % 2 = 0
    · simp [modify, get, h, ihEven]
    · simp [modify, get, h, ihOdd]

/-- Any bucket is as it was, or changed in the same way. -/
theorem get_modify (change : Bucket κ α → Bucket κ α) (t : Buckets κ α) (depth d e : Nat) :
    (t.modify change depth d).get e = t.get e ∨
      (t.modify change depth d).get e = change (t.get e) := by
  induction t generalizing depth d e with
  | empty => exact get_single (change []) depth d e
  | leaf b => exact .inr rfl
  | node even odd ihEven ihOdd =>
    by_cases h : d % 2 = 0 <;> by_cases h' : e % 2 = 0
    · simpa [modify, get, h, h'] using ihEven (depth - 1) (d / 2) (e / 2)
    · simp [modify, get, h, h']
    · simp [modify, get, h, h']
    · simpa [modify, get, h, h'] using ihOdd (depth - 1) (d / 2) (e / 2)

end Buckets

end HotPath
