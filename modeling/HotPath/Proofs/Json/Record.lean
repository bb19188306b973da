/-
  HotPath.Proofs.Json.Record

  Decoding what was built. Natural numbers up to a word, text, lists and records
  with different field names are decoded to what they were built from. In the other
  direction, the fields that a record gives to a decoder are parts of that record.
-/
import HotPath.Proofs.Json.Layout

namespace HotPath.Json

-- ============================================================================
-- Lists
-- ============================================================================

/-- Parts that each decode, decode together. -/
theorem mapM_map_eq_some {α β γ : Type} {f : α → β} {g : β → Option γ} {k : α → γ} {xs : List α}
    (h : ∀ x ∈ xs, g (f x) = some (k x)) : (xs.map f).mapM g = some (xs.map k) := by
  induction xs with
  | nil => rfl
  | cons x xs ih =>
    have hx := h x List.mem_cons_self
    have hxs := ih (fun y hy => h y (List.mem_cons_of_mem _ hy))
    rw [List.map_cons, List.mapM_cons, hx, hxs]
    rfl

/-- What was decoded from a list came from one of its parts. -/
theorem exists_of_mem_mapM {α β : Type} {g : α → Option β} {xs : List α} {ys : List β}
    (h : xs.mapM g = some ys) {y : β} (hy : y ∈ ys) : ∃ x ∈ xs, g x = some y := by
  induction xs generalizing ys with
  | nil =>
    cases h
    cases hy
  | cons x xs ih =>
    rw [List.mapM_cons] at h
    obtain ⟨z, hz, h⟩ := Option.bind_eq_some_iff.mp h
    obtain ⟨zs, hzs, h⟩ := Option.bind_eq_some_iff.mp h
    cases h
    rcases List.mem_cons.mp hy with rfl | hy
    · exact ⟨x, List.mem_cons_self, hz⟩
    · obtain ⟨x', hx', hg⟩ := ih hzs hy
      exact ⟨x', List.mem_cons_of_mem _ hx', hg⟩

theorem list?_map {α : Type} {part : Json → Option α} {f : α → Json} {xs : List α}
    (h : ∀ x ∈ xs, part (f x) = some x) : list? part (.arr (xs.map f)) = some xs := by
  have hid := mapM_map_eq_some (k := id) h
  rw [List.map_id] at hid
  exact hid

/-- The parts of a list that has to be there are decoded one by one. -/
theorem exists_of_mem_required {α : Type} {part : Json → Option α} {field : Option Json}
    {xs : List α} (h : required (list? part) field = some xs) {x : α} (hx : x ∈ xs) :
    ∃ j, part j = some x := by
  obtain ⟨j, -, hj⟩ := Option.bind_eq_some_iff.mp h
  cases j with
  | arr items =>
    obtain ⟨i, -, hi⟩ := exists_of_mem_mapM hj hx
    exact ⟨i, hi⟩
  | null => cases hj
  | bool b => cases hj
  | num lexeme => cases hj
  | str raw => cases hj
  | obj members => cases hj

-- ============================================================================
-- Scalars
-- ============================================================================

theorem text?_ofText (s : String) : (ofText s).text? = some s := Quoted.decode?_encode s

theorem nat?_ofNat {n max : Nat} (h : n ≤ max) (hmax : max ≤ Word.max) :
    (ofNat n).nat? max = some n := by
  have hint : (ofNat n).int? = some (n : Int) := by
    show Number.int? (Number.ofNat n) = _
    rw [← Number.ofInt_natCast]
    exact Number.int?_ofInt (by omega) (by omega)
  have hrange : 0 ≤ (n : Int) ∧ (n : Int) ≤ max := by omega
  unfold nat?
  rw [hint, Option.bind_some, if_pos hrange, Int.toNat_natCast]

theorem holds_ofInt {n : Int} (hlo : -(Word.half : Int) ≤ n) (hhi : n ≤ (Word.max : Int))
    (depth : Nat) : (ofInt n).holds depth = true := by
  unfold ofInt
  rw [holds]
  exact Number.isFinite_ofInt hlo hhi

theorem holds_ofNat {n : Nat} (h : n ≤ Word.max) (depth : Nat) :
    (ofNat n).holds depth = true := by
  unfold ofNat
  rw [holds, ← Number.ofInt_natCast]
  exact Number.isFinite_ofInt (by omega) (by omega)

theorem holds_ofText (s : String) (depth : Nat) : (ofText s).holds depth = true := by
  unfold ofText
  rw [holds, Quoted.decode?_encode]
  rfl

theorem holdsItems_eq (depth : Nat) (js : List Json) :
    holdsItems depth js = js.all (holds depth) := by
  induction js with
  | nil => rw [holdsItems, List.all_nil]
  | cons j js ih => rw [holdsItems, ih, List.all_cons]

-- ============================================================================
-- Records
-- ============================================================================

theorem keyed?_record (fields : List (String × Json)) :
    keyed? (fields.map (fun f => (Quoted.encode f.1, f.2))) = some fields := by
  have h : keyed? (fields.map (fun f => (Quoted.encode f.1, f.2))) = some (fields.map id) :=
    mapM_map_eq_some (fun f _ => by rw [Quoted.decode?_encode]; rfl)
  rw [List.map_id] at h
  exact h

theorem valuesOf_of_not_mem {fields : List (String × Json)} {name : String}
    (h : name ∉ fields.map Prod.fst) : valuesOf fields name = [] := by
  have hnone : fields.filter (fun m => m.1 == name) = [] := by
    apply List.filter_eq_nil_iff.mpr
    intro m hm heq
    exact h (List.mem_map.mpr ⟨m, hm, beq_iff_eq.mp heq⟩)
  unfold valuesOf
  rw [hnone]
  rfl

/-- With different names, each name has its own value. -/
theorem valuesOf_eq {fields : List (String × Json)} (h : (fields.map Prod.fst).Nodup)
    {f : String × Json} (hf : f ∈ fields) : valuesOf fields f.1 = [f.2] := by
  induction fields with
  | nil => cases hf
  | cons g gs ih =>
    rw [List.map_cons, List.nodup_cons] at h
    rcases List.mem_cons.mp hf with rfl | hf
    · have hrest := valuesOf_of_not_mem h.1
      unfold valuesOf at hrest ⊢
      rw [List.filter_cons_of_pos (by simp), List.map_cons, hrest]
    · have hne : g.1 ≠ f.1 := by
        intro heq
        apply h.1
        rw [heq]
        exact List.mem_map_of_mem hf
      have hrest := ih h.2 hf
      unfold valuesOf at hrest ⊢
      rw [List.filter_cons_of_neg (by simpa using hne), hrest]

theorem namedFields?_eq {fields : List (String × Json)} (h : (fields.map Prod.fst).Nodup) :
    namedFields? (fields.map Prod.fst) fields = some (fields.map (fun f => some f.2)) :=
  mapM_map_eq_some (fun f hf => by rw [valuesOf_eq h hf]; rfl)

/-- A record with different names is decoded to its fields. -/
theorem fields?_record {fields : List (String × Json)} (h : (fields.map Prod.fst).Nodup) :
    (record fields).fields? (fields.map Prod.fst) = some (fields.map (fun f => some f.2)) := by
  show (keyed? _).bind _ = _
  rw [keyed?_record, Option.bind_some, namedFields?_eq h]

theorem written_record {fields : List (String × Json)} (h : ∀ f ∈ fields, f.2.Written) :
    (record fields).Written := by
  apply Written.obj
  · intro m hm
    obtain ⟨f, -, rfl⟩ := List.mem_map.mp hm
    exact ⟨f.1, rfl⟩
  · intro m hm
    obtain ⟨f, hf, rfl⟩ := List.mem_map.mp hm
    exact h f hf

/-- A field that was found by its name is the value of a member. -/
theorem exists_of_mem_namedFields? {names : List String} {members : List (String × Json)}
    {fields : List (Option Json)} (h : namedFields? names members = some fields) {j : Json}
    (hj : some j ∈ fields) : ∃ m ∈ members, m.2 = j := by
  obtain ⟨name, -, honce⟩ := exists_of_mem_mapM h hj
  have hmem : j ∈ valuesOf members name := by
    cases hv : valuesOf members name with
    | nil =>
      rw [hv] at honce
      cases honce
    | cons i is =>
      rw [hv] at honce
      cases is with
      | nil =>
        cases honce
        exact List.mem_cons_self
      | cons i' is => cases honce
  obtain ⟨m, hm, hmj⟩ := List.mem_map.mp hmem
  exact ⟨m, List.mem_of_mem_filter hm, hmj⟩

/-- A field that was found by its place is an item. -/
theorem mem_of_mem_placedFields? {count : Nat} {items : List Json} {fields : List (Option Json)}
    (h : placedFields? count items = some fields) {j : Json} (hj : some j ∈ fields) :
    j ∈ items := by
  unfold placedFields? at h
  split at h
  · cases h
    rcases List.mem_append.mp hj with hj | hj
    · obtain ⟨i, hi, heq⟩ := List.mem_map.mp hj
      cases heq
      exact hi
    · cases List.eq_of_mem_replicate hj
  · cases h

end HotPath.Json
