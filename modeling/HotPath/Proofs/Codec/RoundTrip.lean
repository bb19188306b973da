/-
  HotPath.Proofs.Codec.RoundTrip

  Program files, written and read back. A value is what its document spells
  (`Value.ofJson?_toJson`), an instruction of a program is what its document spells
  (`Instr.ofJson?_toJson`), and so is a whole program. The one limit is how deep
  constants nest: a file holds constants that nest at most `Program.constantDepth`
  tuples, and reading gives no others (`Instr.nesting_le`).

  The checks of a program bound every number in it, so the widths of registers,
  functions and positions never get in the way.
-/
import HotPath.Codec.Program
import HotPath.Proofs.Json.Record
import HotPath.Proofs.Program.Checked

namespace HotPath

-- ============================================================================
-- Values
-- ============================================================================

namespace Value

mutual

/-- How many tuples a value nests. -/
def nesting : Value → Nat
  | .nil => 0
  | .int _ => 0
  | .tuple fields => nestingAll fields + 1

/-- How many tuples the deepest of some values nests. -/
def nestingAll : List Value → Nat
  | [] => 0
  | v :: vs => max (nesting v) (nestingAll vs)

end

/-- What holds of nil and integers, and of a tuple if it holds of its fields, holds of
every value. -/
@[elab_as_elim]
theorem induction_on {P : Value → Prop} (v : Value) (nil : P .nil) (int : ∀ n, P (.int n))
    (tuple : ∀ fields, (∀ w ∈ fields, P w) → P (.tuple fields)) : P v :=
  @Value.rec P (fun vs => ∀ w ∈ vs, P w) nil int tuple
    (fun _ hw => by cases hw)
    (fun v vs hv hvs w hw => by
      rcases List.mem_cons.mp hw with rfl | hw
      · exact hv
      · exact hvs w hw) v

theorem toJsons_eq_map (vs : List Value) : toJsons vs = vs.map toJson := by
  induction vs with
  | nil => rw [toJsons, List.map_nil]
  | cons v vs ih => rw [toJsons, ih, List.map_cons]

theorem ofJsons?_eq_mapM (js : List Json) : ofJsons? js = js.mapM ofJson? := by
  induction js with
  | nil =>
    rw [ofJsons?]
    rfl
  | cons j js ih =>
    rw [ofJsons?, ih, List.mapM_cons]
    cases ofJson? j with
    | none => rfl
    | some v =>
      cases js.mapM ofJson? with
      | none => rfl
      | some vs => rfl

theorem nestingAll_le_iff {vs : List Value} {d : Nat} :
    nestingAll vs ≤ d ↔ ∀ v ∈ vs, v.nesting ≤ d := by
  induction vs with
  | nil => simp [nestingAll]
  | cons v vs ih => rw [nestingAll, Nat.max_le, ih, List.forall_mem_cons]

/-- Integers of a value fit a signed word. -/
theorem toInt_bounds (n : Int64) : -(Word.half : Int) ≤ n.toInt ∧ n.toInt < (Word.half : Int) :=
  ⟨n.le_toInt, n.toInt_lt⟩

/-- A value is what its document spells. -/
theorem ofJson?_toJson (v : Value) : ofJson? v.toJson = some v := by
  induction v using induction_on with
  | nil => rw [toJson, ofJson?]
  | int n =>
    obtain ⟨hlo, hhi⟩ := toInt_bounds n
    have hmax : Word.half ≤ Word.max := by decide
    rw [toJson, Json.ofInt, ofJson?, Json.Number.int?_ofInt hlo (by omega), Option.bind_some,
      ofInt?, if_pos ⟨hlo, hhi⟩, Int64.ofInt_toInt]
  | tuple fields ih =>
    have hfields := Json.mapM_map_eq_some (k := id) ih
    rw [List.map_id] at hfields
    rw [toJson, ofJson?, ofJsons?_eq_mapM, toJsons_eq_map, hfields]
    rfl

theorem written_toJson (v : Value) : v.toJson.Written := by
  induction v using induction_on with
  | nil =>
    rw [toJson]
    exact .null
  | int n =>
    rw [toJson]
    exact .num n.toInt
  | tuple fields ih =>
    rw [toJson, toJsons_eq_map]
    refine .arr (fun j hj => ?_)
    obtain ⟨w, hw, rfl⟩ := List.mem_map.mp hj
    exact ih w hw

/-- The document of a value can be held where the value's tuples find room. -/
theorem holds_toJson {v : Value} {d : Nat} (h : v.nesting ≤ d) : v.toJson.holds d = true := by
  induction v using induction_on generalizing d with
  | nil => rw [toJson, Json.holds]
  | int n =>
    obtain ⟨hlo, hhi⟩ := toInt_bounds n
    have hmax : Word.half ≤ Word.max := by decide
    rw [toJson]
    exact Json.holds_ofInt hlo (by omega) d
  | tuple fields ih =>
    rw [nesting] at h
    cases d with
    | zero => omega
    | succ d =>
      have hfields := nestingAll_le_iff.mp (Nat.le_of_succ_le_succ h)
      rw [toJson, toJsons_eq_map, Json.holds, Json.holdsItems_eq, List.all_map, List.all_eq_true]
      exact fun w hw => ih w hw (hfields w hw)

/-- A document that can be held spells no value that nests deeper. -/
theorem nesting_le_of_holds {v : Value} {j : Json} {d : Nat} (hv : ofJson? j = some v)
    (h : j.holds d = true) : v.nesting ≤ d := by
  induction v using induction_on generalizing j d with
  | nil =>
    rw [nesting]
    exact Nat.zero_le d
  | int n =>
    rw [nesting]
    exact Nat.zero_le d
  | tuple fields ih =>
    cases j with
    | null => cases hv
    | bool b => cases hv
    | str raw => cases hv
    | obj members => cases hv
    | num lexeme =>
      rw [ofJson?] at hv
      obtain ⟨n, -, hn⟩ := Option.bind_eq_some_iff.mp hv
      unfold ofInt? at hn
      split at hn
      · cases hn
      · cases hn
    | arr items =>
      rw [ofJson?, ofJsons?_eq_mapM] at hv
      obtain ⟨vs, hvs, heq⟩ := Option.map_eq_some_iff.mp hv
      cases heq
      cases d with
      | zero =>
        rw [Json.holds] at h
        cases h
      | succ d =>
        rw [Json.holds, Json.holdsItems_eq, List.all_eq_true] at h
        rw [nesting]
        apply Nat.succ_le_succ
        apply nestingAll_le_iff.mpr
        intro w hw
        obtain ⟨i, hi, hwi⟩ := Json.exists_of_mem_mapM hvs hw
        exact ih w hw hwi (h i hi)

end Value

-- ============================================================================
-- Instructions
-- ============================================================================

theorem Operator.ofName?_name (op : Operator) : Operator.ofName? op.name = some op := by
  cases op <;> rfl

theorem Operator.ofJson?_ofText (op : Operator) : Operator.ofJson? (.ofText op.name) = some op := by
  show (Json.Quoted.decode? (Json.Quoted.encode op.name)).bind Operator.ofName? = some op
  rw [Json.Quoted.decode?_encode, Option.bind_some, Operator.ofName?_name]

namespace Instr

theorem Name.ofText?_text (name : Name) : Name.ofText? name.text = some name := by
  cases name <;> rfl

/-- The fields of an instruction are told apart, also from the `op`. -/
theorem Name.nodup_fields (name : Name) : ("op" :: name.fields).Nodup := by
  cases name <;> decide

theorem length_fieldValues (i : Instr) : i.fieldValues.length = i.opName.fields.length := by
  cases i <;> rfl

/-- An instruction whose numbers fit their widths, and whose constant nests at most
`depth` tuples. -/
structure FitsFile (depth : Nat) (i : Instr) : Prop where
  reg_le : ∀ r ∈ i.reads ++ i.writes.toList, r ≤ 255
  func_le : ∀ dst func args, i = .call dst func args → func ≤ Word.max32
  target_le : ∀ target, i = .jump target → target ≤ Word.max
  elsePc_le : ∀ cond elsePc join, i = .branch cond elsePc join → elsePc ≤ Word.max
  join_le : ∀ cond elsePc join, i = .branch cond elsePc (some join) → join ≤ Word.max
  nesting_le : ∀ dst v, i = .const dst v → v.nesting ≤ depth

theorem reg?_ofNat {r : Reg} (h : r ≤ 255) : reg? (.ofNat r) = some r :=
  Json.nat?_ofNat h (by decide)

theorem func?_ofNat {g : FuncId} (h : g ≤ Word.max32) : func? (.ofNat g) = some g :=
  Json.nat?_ofNat h (by decide)

theorem pc?_ofNat {pc : Nat} (h : pc ≤ Word.max) : pc? (.ofNat pc) = some pc :=
  Json.nat?_ofNat h (Nat.le_refl _)

theorem index_le (index : UInt64) : index.toNat ≤ Word.max :=
  Nat.le_of_lt_succ index.toNat_lt

theorem index?_ofNat (index : UInt64) : index? (.ofNat index.toNat) = some index := by
  unfold index?
  rw [Json.nat?_ofNat (index_le index) (Nat.le_refl _), Option.map_some, UInt64.ofNat_toNat]

theorem regs?_regsJson {rs : List Reg} (h : ∀ r ∈ rs, r ≤ 255) : regs? (regsJson rs) = some rs :=
  Json.list?_map (fun r hr => reg?_ofNat (h r hr))

/-- The fields of an instruction are decoded to it. -/
theorem ofFields?_fieldValues {depth : Nat} {i : Instr} (h : i.FitsFile depth) :
    ofFields? i.opName (i.fieldValues.map some) = some i := by
  have hreg : ∀ r ∈ i.reads ++ i.writes.toList, reg? (.ofNat r) = some r :=
    fun r hr => reg?_ofNat (h.reg_le r hr)
  have hregs : regs? (regsJson i.reads) = some i.reads :=
    regs?_regsJson (fun r hr => h.reg_le r (List.mem_append_left _ hr))
  cases i with
  | const dst v =>
    have hdst := hreg dst (by simp [writes])
    simp [opName, fieldValues, ofFields?, Json.required, hdst, Value.ofJson?_toJson]
  | move dst src =>
    have hdst := hreg dst (by simp [writes])
    have hsrc := hreg src (by simp [reads])
    simp [opName, fieldValues, ofFields?, Json.required, hdst, hsrc]
  | binary op dst lhs rhs =>
    have hdst := hreg dst (by simp [writes])
    have hlhs := hreg lhs (by simp [reads])
    have hrhs := hreg rhs (by simp [reads])
    simp [opName, fieldValues, ofFields?, Json.required, hdst, hlhs, hrhs, Operator.ofJson?_ofText]
  | input dst =>
    have hdst := hreg dst (by simp [writes])
    simp [opName, fieldValues, ofFields?, Json.required, hdst]
  | print src =>
    have hsrc := hreg src (by simp [reads])
    simp [opName, fieldValues, ofFields?, Json.required, hsrc]
  | alloc dst fields =>
    have hdst := hreg dst (by simp [writes])
    have hfields : regs? (regsJson fields) = some fields := hregs
    simp [opName, fieldValues, ofFields?, Json.required, hdst, hfields]
  | getField dst obj index =>
    have hdst := hreg dst (by simp [writes])
    have hobj := hreg obj (by simp [reads])
    simp [opName, fieldValues, ofFields?, Json.required, hdst, hobj, index?_ofNat]
  | call dst func args =>
    have hdst := hreg dst (by simp [writes])
    have hfunc := func?_ofNat (h.func_le dst func args rfl)
    have hargs : regs? (regsJson args) = some args := hregs
    simp [opName, fieldValues, ofFields?, Json.required, hdst, hfunc, hargs]
  | jump target =>
    have htarget := pc?_ofNat (h.target_le target rfl)
    simp [opName, fieldValues, ofFields?, Json.required, htarget]
  | branch cond elsePc join =>
    have hcond := hreg cond (by simp [reads])
    have helse := pc?_ofNat (h.elsePc_le cond elsePc join rfl)
    cases join with
    | none =>
      simp [opName, fieldValues, ofFields?, Json.required, Json.optional, hcond, helse, join?]
    | some pc =>
      have hjoin : join? (.ofNat pc) = some (some pc) := by
        show (pc? (.ofNat pc)).map some = _
        rw [pc?_ofNat (h.join_le cond elsePc pc rfl), Option.map_some]
      simp [opName, fieldValues, ofFields?, Json.required, Json.optional, hcond, helse, hjoin]
  | mergePoint greens =>
    have hgreens : regs? (regsJson greens) = some greens := hregs
    simp [opName, fieldValues, ofFields?, Json.optional, hgreens]
  | promote reg =>
    have hr := hreg reg (by simp [reads])
    simp [opName, fieldValues, ofFields?, Json.required, hr]
  | ret src =>
    have hsrc := hreg src (by simp [reads])
    simp [opName, fieldValues, ofFields?, Json.required, hsrc]

theorem holds_regsJson {rs : List Reg} (h : ∀ r ∈ rs, r ≤ 255) {depth : Nat} (hd : 0 < depth) :
    (regsJson rs).holds depth = true := by
  obtain ⟨d, rfl⟩ : ∃ d, depth = d + 1 := ⟨depth - 1, by omega⟩
  rw [regsJson, Json.holds, Json.holdsItems_eq, List.all_map, List.all_eq_true]
  intro r hr
  have hmax : 255 ≤ Word.max := by decide
  exact Json.holds_ofNat (Nat.le_trans (h r hr) hmax) d

/-- The fields of an instruction can be held. -/
theorem holds_fieldValues {depth : Nat} {i : Instr} (h : i.FitsFile depth) (hd : 0 < depth) :
    ∀ j ∈ i.fieldValues, j.holds depth = true := by
  have hmax : 255 ≤ Word.max := by decide
  have hmax32 : Word.max32 ≤ Word.max := by decide
  have hreg : ∀ r ∈ i.reads ++ i.writes.toList, (Json.ofNat r).holds depth = true :=
    fun r hr => Json.holds_ofNat (Nat.le_trans (h.reg_le r hr) hmax) depth
  have hregs : (regsJson i.reads).holds depth = true :=
    holds_regsJson (fun r hr => h.reg_le r (List.mem_append_left _ hr)) hd
  cases i with
  | const dst v =>
    have hdst := hreg dst (by simp [writes])
    have hv := Value.holds_toJson (h.nesting_le dst v rfl)
    simp [fieldValues, hdst, hv]
  | move dst src =>
    simpa [fieldValues, reads, writes, and_comm] using hreg
  | binary op dst lhs rhs =>
    have hop := Json.holds_ofText op.name depth
    have hdst := hreg dst (by simp [writes])
    have hlhs := hreg lhs (by simp [reads])
    have hrhs := hreg rhs (by simp [reads])
    simp [fieldValues, hop, hdst, hlhs, hrhs]
  | input dst | print src | promote reg | ret src =>
    simpa [fieldValues, reads, writes] using hreg
  | alloc dst fields =>
    have hdst := hreg dst (by simp [writes])
    have hfields : (regsJson fields).holds depth = true := hregs
    simp [fieldValues, hdst, hfields]
  | getField dst obj index =>
    have hdst := hreg dst (by simp [writes])
    have hobj := hreg obj (by simp [reads])
    have hindex := Json.holds_ofNat (index_le index) depth
    simp [fieldValues, hdst, hobj, hindex]
  | call dst func args =>
    have hdst := hreg dst (by simp [writes])
    have hfunc := Json.holds_ofNat (Nat.le_trans (h.func_le dst func args rfl) hmax32) depth
    have hargs : (regsJson args).holds depth = true := hregs
    simp [fieldValues, hdst, hfunc, hargs]
  | jump target =>
    have htarget := Json.holds_ofNat (h.target_le target rfl) depth
    simp [fieldValues, htarget]
  | branch cond elsePc join =>
    have hcond := hreg cond (by simp [reads])
    have helse := Json.holds_ofNat (h.elsePc_le cond elsePc join rfl) depth
    cases join with
    | none => simp [fieldValues, hcond, helse, Json.holds]
    | some pc =>
      have hjoin := Json.holds_ofNat (h.join_le cond elsePc pc rfl) depth
      simp [fieldValues, hcond, helse, hjoin]
  | mergePoint greens =>
    have hgreens : (regsJson greens).holds depth = true := hregs
    simp [fieldValues, hgreens]

theorem written_regsJson (rs : List Reg) : (regsJson rs).Written := by
  refine .arr (fun j hj => ?_)
  obtain ⟨r, -, rfl⟩ := List.mem_map.mp hj
  exact .num r

theorem written_fieldValues (i : Instr) : ∀ j ∈ i.fieldValues, j.Written := by
  have hnat : ∀ n : Nat, (Json.ofNat n).Written := fun n => .num n
  cases i with
  | branch cond elsePc join =>
    cases join with
    | none => simp [fieldValues, hnat, Json.Written.null]
    | some pc => simp [fieldValues, hnat]
  | const | move | binary | input | print | alloc | getField | call | jump | mergePoint | promote
  | ret => simp [fieldValues, hnat, Json.Written.str, Value.written_toJson, written_regsJson]

/-- The members of an instruction's document, with their keys read. -/
def members (i : Instr) : List (String × Json) :=
  ("op", .ofText i.opName.text) :: i.opName.fields.zip i.fieldValues

theorem map_fst_zip_fields (i : Instr) :
    (i.opName.fields.zip i.fieldValues).map Prod.fst = i.opName.fields :=
  List.map_fst_zip (Nat.le_of_eq i.length_fieldValues.symm)

theorem map_snd_zip_fields (i : Instr) :
    (i.opName.fields.zip i.fieldValues).map Prod.snd = i.fieldValues :=
  List.map_snd_zip (Nat.le_of_eq i.length_fieldValues)

theorem nodup_members (i : Instr) : (i.members.map Prod.fst).Nodup := by
  unfold members
  rw [List.map_cons, map_fst_zip_fields]
  exact i.opName.nodup_fields

/-- Without the `op`, the members are the fields. -/
theorem filter_members (i : Instr) :
    i.members.filter (fun m => m.1 != "op") = i.opName.fields.zip i.fieldValues := by
  have hop : "op" ∉ i.opName.fields := (List.nodup_cons.mp i.opName.nodup_fields).1
  unfold members
  rw [List.filter_cons_of_neg (by simp), List.filter_eq_self]
  intro m hm
  have hmem : m.1 ∈ i.opName.fields := by
    rw [← map_fst_zip_fields]
    exact List.mem_map_of_mem hm
  simp only [bne_iff_ne]
  intro heq
  exact hop (heq ▸ hmem)

/-- An instruction that fits is what its document spells. -/
theorem ofJson?_toJson {depth : Nat} {i : Instr} (h : i.FitsFile depth) (hd : 0 < depth) :
    ofJson? depth i.toJson = some i := by
  have hop : Json.valuesOf i.members "op" = [.ofText i.opName.text] :=
    Json.valuesOf_eq i.nodup_members (List.mem_cons_self)
  have hholds : (i.opName.fields.zip i.fieldValues).all (fun m => m.2.holds depth) = true := by
    rw [List.all_eq_true]
    intro m hm
    apply holds_fieldValues h hd
    rw [← map_snd_zip_fields]
    exact List.mem_map_of_mem hm
  have hfields : Json.namedFields? i.opName.fields (i.opName.fields.zip i.fieldValues) =
      some (i.fieldValues.map some) := by
    have hnodup := (List.nodup_cons.mp i.opName.nodup_fields).2
    rw [← map_fst_zip_fields] at hnodup
    have hnamed := Json.namedFields?_eq hnodup
    have hvalues : (i.opName.fields.zip i.fieldValues).map (fun f => some f.2) =
        i.fieldValues.map some := by
      have hmap := congrArg (List.map some) i.map_snd_zip_fields
      rw [List.map_map] at hmap
      exact hmap
    rw [map_fst_zip_fields, hvalues] at hnamed
    exact hnamed
  have hdoc : i.toJson = .obj (i.members.map (fun f => (Json.Quoted.encode f.1, f.2))) := rfl
  rw [hdoc, ofJson?, Json.keyed?_record]
  simp [hop, Json.once?, Json.required, Json.text?_ofText, Name.ofText?_text, filter_members,
    hholds, hfields, ofFields?_fieldValues h]

theorem written_toJson (i : Instr) : i.toJson.Written := by
  apply Json.written_record
  intro f hf
  rcases List.mem_cons.mp hf with rfl | hf
  · exact .str _
  · apply i.written_fieldValues
    rw [← map_snd_zip_fields]
    exact List.mem_map_of_mem hf

/-- A constant is decoded from one of the fields. -/
theorem exists_of_ofFields? {name : Name} {fields : List (Option Json)} {dst : Reg} {v : Value}
    (h : ofFields? name fields = some (.const dst v)) :
    ∃ j, some j ∈ fields ∧ Value.ofJson? j = some v := by
  unfold ofFields? at h
  split at h
  next dst' value =>
    simp only [Json.required, Option.bind_eq_bind, Option.bind_eq_some_iff] at h
    obtain ⟨r, -, w, ⟨j, hj, hw⟩, heq⟩ := h
    cases heq
    exact ⟨j, by simp [hj], hw⟩
  all_goals simp [Option.bind_eq_some_iff] at h

/-- Reading an instruction gives no constant that nests deeper. -/
theorem nesting_le {depth : Nat} {j : Json} {dst : Reg} {v : Value}
    (h : ofJson? depth j = some (.const dst v)) : v.nesting ≤ depth := by
  cases j with
  | null => cases h
  | bool b => cases h
  | num lexeme => cases h
  | str raw => cases h
  | obj members =>
    simp only [ofJson?, Option.bind_eq_bind, Option.bind_eq_some_iff] at h
    obtain ⟨ms, -, op, -, text, -, name, -, h⟩ := h
    split at h
    next hholds =>
      obtain ⟨fields, hfields, h⟩ := Option.bind_eq_some_iff.mp h
      obtain ⟨j, hj, hv⟩ := exists_of_ofFields? h
      obtain ⟨m, hm, rfl⟩ := Json.exists_of_mem_namedFields? hfields hj
      exact Value.nesting_le_of_holds hv (List.all_eq_true.mp hholds m hm)
    next => cases h
  | arr items =>
    cases items with
    | nil => cases h
    | cons op items =>
      simp only [ofJson?, Option.bind_eq_bind, Option.bind_eq_some_iff] at h
      obtain ⟨text, -, name, -, h⟩ := h
      split at h
      next hholds =>
        obtain ⟨fields, hfields, h⟩ := Option.bind_eq_some_iff.mp h
        obtain ⟨j, hj, hv⟩ := exists_of_ofFields? h
        have hmem := Json.mem_of_mem_placedFields? hfields hj
        exact Value.nesting_le_of_holds hv (List.all_eq_true.mp hholds j hmem)
      next => cases h

end Instr

-- ============================================================================
-- Functions and programs
-- ============================================================================

theorem Function.ofJson?_toJson {f : Function} (hparams : f.params ≤ 255)
    (hregisters : f.registers ≤ 255) (hcode : ∀ i ∈ f.code, i.FitsFile Program.constantDepth) :
    Function.ofJson? f.toJson = some f := by
  have hfields := @Json.fields?_record
    [("name", .ofText f.name), ("params", .ofNat f.params), ("registers", .ofNat f.registers),
      ("code", .arr (f.code.toList.map Instr.toJson))] (by simp)
  simp only [List.map_cons, List.map_nil] at hfields
  have hname := Json.text?_ofText f.name
  have hp : (Json.ofNat f.params).nat? 255 = some f.params := Json.nat?_ofNat hparams (by decide)
  have hr : (Json.ofNat f.registers).nat? 255 = some f.registers :=
    Json.nat?_ofNat hregisters (by decide)
  have hc : (Json.arr (f.code.toList.map Instr.toJson)).list?
      (Instr.ofJson? Program.constantDepth) = some f.code.toList :=
    Json.list?_map (fun i hi =>
      Instr.ofJson?_toJson (hcode i (Array.mem_def.mpr hi)) (by decide))
  unfold Function.ofJson? Function.toJson
  rw [hfields]
  simp [Json.required, Json.optional, hname, hp, hr, hc]

/-- The instructions of a function are decoded one by one. -/
theorem Function.exists_instr_of_ofJson? {j : Json} {f : Function} (h : Function.ofJson? j = some f)
    {i : Instr} (hi : i ∈ f.code) : ∃ ji, Instr.ofJson? Program.constantDepth ji = some i := by
  unfold Function.ofJson? at h
  obtain ⟨fields, -, h⟩ := Option.bind_eq_some_iff.mp h
  split at h
  next name params registers code =>
    simp only [Option.bind_eq_bind, Option.bind_eq_some_iff] at h
    obtain ⟨n, -, ps, -, rs, -, is, his, heq⟩ := h
    cases heq
    exact Json.exists_of_mem_required his (List.mem_toArray.mp hi)
  next => cases h

theorem Function.written_toJson (f : Function) : f.toJson.Written := by
  apply Json.written_record
  have hnat : ∀ n : Nat, (Json.ofNat n).Written := fun n => .num n
  have hcode : (Json.arr (f.code.toList.map Instr.toJson)).Written := by
    refine .arr (fun j hj => ?_)
    obtain ⟨i, -, rfl⟩ := List.mem_map.mp hj
    exact i.written_toJson
  simp [hnat, hcode, Json.Written.str]

namespace Program

/-- All constants of a program nest at most so many tuples. -/
def ConstantsNest (p : Program) (depth : Nat) : Prop :=
  ∀ fn ∈ p.functions, ∀ i ∈ fn.code, ∀ dst v, i = Instr.const dst v → v.nesting ≤ depth

theorem written_toJson (p : Program) : p.toJson.Written := by
  apply Json.written_record
  have hentry : (Json.ofNat p.entry).Written := .num p.entry
  have hfunctions : (Json.arr (p.functions.toList.map Function.toJson)).Written := by
    refine .arr (fun j hj => ?_)
    obtain ⟨f, -, rfl⟩ := List.mem_map.mp hj
    exact f.written_toJson
  simp [hentry, hfunctions]

/-- The checks of a program bound the numbers of its instructions. -/
theorem fitsFile {p : Program} {func : FuncId} {fn : Function} {pc : Nat} {i : Instr} {depth : Nat}
    (hf : p.functions[func]? = some fn) (hi : fn.code[pc]? = some i)
    (h : ∀ dst v, i = .const dst v → v.nesting ≤ depth) : i.FitsFile depth := by
  have hregisters : fn.registers ≤ 64 := registers_le_limit hf
  have hsize := code_size_le hf
  refine ⟨?_, ?_, ?_, ?_, ?_, h⟩
  · intro r hr
    exact Nat.le_trans (Nat.le_of_lt (register_lt hf hi hr)) (by omega)
  · rintro dst callee args rfl
    exact Nat.le_of_lt_succ (Nat.lt_of_lt_of_le (callee_lt hf hi) p.functions_size_le)
  · rintro target rfl
    have := successor_lt hf hi (t := target) (by simp [Instr.successors])
    omega
  · rintro cond elsePc join rfl
    have := successor_lt hf hi (t := elsePc) (by simp [Instr.successors])
    omega
  · rintro cond elsePc join rfl
    have := join_lt hf hi
    omega

theorem partsOfJson?_toJson {p : Program} (h : p.ConstantsNest constantDepth) :
    partsOfJson? p.toJson = some (p.functions, p.entry) := by
  have hfields := @Json.fields?_record
    [("functions", .arr (p.functions.toList.map Function.toJson)), ("entry", .ofNat p.entry)]
    (by simp)
  simp only [List.map_cons, List.map_nil] at hfields
  have hentry : (Json.ofNat p.entry).nat? Word.max32 = some p.entry := by
    obtain ⟨fn, hfn⟩ := p.exists_entry
    have hlt := (Array.getElem?_eq_some_iff.mp hfn).1
    have hle := p.functions_size_le
    exact Json.nat?_ofNat (by omega) (by decide)
  have hfunctions : (Json.arr (p.functions.toList.map Function.toJson)).list? Function.ofJson? =
      some p.functions.toList := by
    apply Json.list?_map
    intro fn hfn
    obtain ⟨func, hfunc⟩ := List.mem_iff_getElem?.mp hfn
    rw [Array.getElem?_toList] at hfunc
    have hregisters : fn.registers ≤ 64 := registers_le_limit hfunc
    have hparams := params_le_registers hfunc
    refine Function.ofJson?_toJson (by omega) (by omega) (fun i hi => ?_)
    obtain ⟨pc, hpc⟩ := Array.mem_iff_getElem?.mp hi
    exact fitsFile hfunc hpc (h fn (Array.mem_def.mpr hfn) i hi)
  unfold partsOfJson? toJson
  rw [hfields]
  simp [Json.required, Json.optional, hentry, hfunctions]

/-- A program whose constants files can hold is what its file says. -/
theorem ofText_toText {p : Program} (h : p.ConstantsNest constantDepth) :
    ofText p.toText = .ok p := by
  unfold ofText toText
  rw [Json.parse?_pretty p.written_toJson 0]
  show ofJson p.toJson = .ok p
  unfold ofJson
  rw [partsOfJson?_toJson h]
  exact p.ofFunctions_self

theorem exists_function_of_partsOfJson? {j : Json} {functions : Array Function} {entry : FuncId}
    (h : partsOfJson? j = some (functions, entry)) {fn : Function} (hfn : fn ∈ functions) :
    ∃ jf, Function.ofJson? jf = some fn := by
  unfold partsOfJson? at h
  obtain ⟨fields, -, h⟩ := Option.bind_eq_some_iff.mp h
  split at h
  next fs e =>
    simp only [Option.bind_eq_bind, Option.bind_eq_some_iff] at h
    obtain ⟨fns, hfns, n, -, heq⟩ := h
    cases heq
    exact Json.exists_of_mem_required hfns (List.mem_toArray.mp hfn)
  next => cases h

/-- Reading gives no constants that files could not hold. -/
theorem constantsNest_of_ofText {s : String} {p : Program} (h : ofText s = .ok p) :
    p.ConstantsNest constantDepth := by
  unfold ofText at h
  split at h
  next j _ =>
    unfold ofJson at h
    split at h
    next functions entry hparts =>
      have hfunctions : p.functions = functions := by
        unfold ofFunctions at h
        split at h
        · cases h
        · cases h
          rfl
      intro fn hfn i hi dst v hv
      subst hv
      rw [hfunctions] at hfn
      obtain ⟨jf, hjf⟩ := exists_function_of_partsOfJson? hparts hfn
      obtain ⟨ji, hji⟩ := Function.exists_instr_of_ofJson? hjf hi
      exact Instr.nesting_le hji
    next => cases h
  next => cases h

/-- Program files are read back. What was read from any text is what its file says;
and of all programs, those are what their files say whose constants nest no deeper
than files allow. -/
theorem file_round_trip :
    (∀ s p, ofText s = .ok p → ofText p.toText = .ok p) ∧
      ∀ p : Program, ofText p.toText = .ok p ↔ p.ConstantsNest 122 :=
  ⟨fun _ _ h => ofText_toText (constantsNest_of_ofText h),
    fun _ => ⟨constantsNest_of_ofText, ofText_toText⟩⟩

/-- A function with a name beyond ASCII, the smallest integer inside two tuples, and
the largest field index. -/
def wide : Function :=
  { name := "wi\tdé", params := 1, registers := 2,
    code := #[.const 0 (.tuple [.tuple [.int (-9223372036854775808)], .nil]),
      .getField 1 0 18446744073709551615, .ret 1] }

/-- A file for it that names neither fields nor members. -/
def wideText : String :=
  "[[[\"wi\\td\\u00e9\", 1, 2, [[\"const\", 0, [[-9223372036854775808], null]], " ++
    "[\"get_field\", 1, 0, 18446744073709551615], [\"return\", 1]]]]]"

/-- The file is read, and what was read is read back from its own file. -/
theorem file_round_trip_wide :
    ∃ p, ofText wideText = .ok p ∧ p.functions = #[wide] ∧ ofText p.toText = .ok p ∧
      p.ConstantsNest 122 := by
  have hread : (ofText wideText).toOption.map Program.functions = some #[wide] := by
    decide +kernel
  obtain ⟨p, hp, hfunctions⟩ := Option.map_eq_some_iff.mp hread
  have hok : ofText wideText = .ok p := by
    cases h : ofText wideText with
    | error e =>
      rw [h] at hp
      cases hp
    | ok q =>
      rw [h] at hp
      cases hp
      rfl
  have hback := file_round_trip.1 wideText p hok
  exact ⟨p, hok, hfunctions, hback, (file_round_trip.2 p).mp hback⟩

end Program

end HotPath
