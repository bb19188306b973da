/-
  HotPath.Table.Basic

  Finite tables. A table lists its keys in the order in which they first came,
  each once, and finds their values in buckets placed by digest, so that reading
  and writing take little longer for a large table than for a small one.
-/
import HotPath.Digest
import HotPath.Table.Buckets

namespace HotPath

/-- A finite table. -/
structure Table (κ α : Type) [DecidableEq κ] [Digest κ] where
  /-- The keys that have values, the newest first. -/
  keys : List κ := []
  buckets : Buckets κ α := .empty
  nodup_keys : keys.Nodup := by exact List.nodup_nil
  mem_keys_iff (k : κ) :
    k ∈ keys ↔ (Bucket.find? k (buckets.get (digest k))).isSome = true := by
      simp [Buckets.get, Bucket.find?]

namespace Table

variable {κ α : Type} [DecidableEq κ] [Digest κ]

/-- How many bits of a digest tell buckets apart. -/
def depth : Nat := 12

/-- The value of a key. -/
def get? (t : Table κ α) (k : κ) : Option α := Bucket.find? k (t.buckets.get (digest k))

/-- Whether a key has a value. -/
def contains (t : Table κ α) (k : κ) : Bool := (t.get? k).isSome

/-- The number of keys. -/
def size (t : Table κ α) : Nat := t.keys.length

/-- The keys with their values, the oldest first. -/
def entries (t : Table κ α) : List (κ × α) :=
  t.keys.reverse.filterMap (fun k => (t.get? k).map (fun v => (k, v)))

theorem mem_keys {t : Table κ α} {k : κ} : k ∈ t.keys ↔ t.contains k = true := t.mem_keys_iff k

/-! ## Writing -/

theorem find?_modify_put (b : Buckets κ α) (k l : κ) (v : α) :
    Bucket.find? l ((b.modify (Bucket.put k v) depth (digest k)).get (digest l)) =
      if k = l then some v else Bucket.find? l (b.get (digest l)) := by
  by_cases h : k = l
  · subst h
    rw [Buckets.get_modify_self, Bucket.find?_put]
  · rcases Buckets.get_modify (Bucket.put k v) b depth (digest k) (digest l) with hb | hb
    · rw [hb, if_neg h]
    · rw [hb, Bucket.find?_put]

theorem find?_modify_drop (b : Buckets κ α) (k l : κ) :
    Bucket.find? l ((b.modify (Bucket.drop k) depth (digest k)).get (digest l)) =
      if k = l then none else Bucket.find? l (b.get (digest l)) := by
  by_cases h : k = l
  · subst h
    rw [Buckets.get_modify_self, Bucket.find?_drop]
  · rcases Buckets.get_modify (Bucket.drop k) b depth (digest k) (digest l) with hb | hb
    · rw [hb, if_neg h]
    · rw [hb, Bucket.find?_drop]

/-- Sets the value of a key; the last writer wins. -/
def insert (t : Table κ α) (k : κ) (v : α) : Table κ α where
  keys := if t.contains k then t.keys else k :: t.keys
  buckets := t.buckets.modify (Bucket.put k v) depth (digest k)
  nodup_keys := by
    by_cases h : t.contains k = true
    · simpa [h] using t.nodup_keys
    · simpa [h, mem_keys] using t.nodup_keys
  mem_keys_iff l := by
    rw [find?_modify_put]
    by_cases h : t.contains k = true <;> by_cases hl : k = l
    · subst hl
      simp [h, mem_keys]
    · simpa [h, hl] using t.mem_keys_iff l
    · subst hl
      simp [h]
    · simpa [h, hl, Ne.symm hl] using t.mem_keys_iff l

/-- Removes a key. -/
def erase (t : Table κ α) (k : κ) : Table κ α where
  keys := t.keys.filter (fun l => l ≠ k)
  buckets := t.buckets.modify (Bucket.drop k) depth (digest k)
  nodup_keys := t.nodup_keys.filter _
  mem_keys_iff l := by
    rw [find?_modify_drop]
    by_cases hl : k = l
    · subst hl
      simp
    · simpa [hl, Ne.symm hl] using t.mem_keys_iff l

/-! ## Reading after writing -/

@[simp] theorem get?_empty (k : κ) : ({} : Table κ α).get? k = none := rfl

@[simp] theorem get?_insert (t : Table κ α) (k l : κ) (v : α) :
    (t.insert k v).get? l = if k = l then some v else t.get? l :=
  find?_modify_put t.buckets k l v

@[simp] theorem get?_erase (t : Table κ α) (k l : κ) :
    (t.erase k).get? l = if k = l then none else t.get? l :=
  find?_modify_drop t.buckets k l

@[simp] theorem size_insert (t : Table κ α) (k : κ) (v : α) :
    (t.insert k v).size = if t.contains k then t.size else t.size + 1 := by
  unfold size insert
  split <;> rfl

theorem contains_insert (t : Table κ α) (k l : κ) (v : α) :
    (t.insert k v).contains l = (decide (k = l) || t.contains l) := by
  unfold contains
  rw [get?_insert]
  by_cases h : k = l <;> simp [h]

end Table

/-! ## Sets of keys -/

/-- A finite set. -/
abbrev KeySet (κ : Type) [DecidableEq κ] [Digest κ] := Table κ Unit

namespace KeySet

variable {κ : Type} [DecidableEq κ] [Digest κ]

/-- Adds a key. -/
def add (s : KeySet κ) (k : κ) : KeySet κ := s.insert k ()

@[simp] theorem contains_add (s : KeySet κ) (k l : κ) :
    (s.add k).contains l = (decide (k = l) || s.contains l) :=
  Table.contains_insert s k l ()

end KeySet

end HotPath
