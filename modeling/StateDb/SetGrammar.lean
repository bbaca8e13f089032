/-
  StateDb/SetGrammar.lean
  =======================
  **The grammar of SET** (`set_handler`, `require_at_least`, the `load_from` of the
  implementors).

  The body of a SET is a key, a zero byte, a type id and the bytes of a value.  The
  grammar says, in numbers that do not overflow, which bodies have enough bytes.  The
  handler is compared with it: it accepts by it just when no decoder leaves its memory
  (`setsByGrammar_iff`).
-/
import StateDb.Handlers

namespace StateDb

/-! ## The grammar -/

/-- The bytes are enough for a value of the type. -/
inductive Suffices : UInt8 → List UInt8 → Prop
  | none (v : List UInt8) : Suffices dtypeNone v
  | fixed (t : FixedType) (v : List UInt8) : t.size ≤ v.length → Suffices t.id v
  | blob (v : List UInt8) : 4 ≤ v.length → 4 + leNat (v.take 4) ≤ v.length → Suffices dtypeBlob v
  | string (v : List UInt8) : 1 ≤ v.length → Suffices dtypeString v
  | bigint (v : List UInt8) : 2 ≤ v.length → Suffices dtypeBigint v

/-- The first zero byte is at `p`, the type id behind it, and the rest is enough. -/
def SetGrammar (body : List UInt8) : Prop :=
  ∃ p dtype, (∀ i < p, body[i]? ≠ some 0) ∧ body[p]? = some 0 ∧ p + 2 ≤ body.length ∧
    body[p + 1]? = some dtype ∧ Suffices dtype (body.drop (p + 2))

/-- `set_handler` accepts a body of the grammar, and answers any other with an error. -/
def SetsByGrammar (w : Nat) (db : Db) (body : List UInt8) : Prop :=
  ((∃ db' key, setHandler w db body = .accepted db' key) ↔ SetGrammar body) ∧
    (¬ SetGrammar body → ∃ text, setHandler w db body = .refused text)

/-! ## What the types need -/

theorem suffices_fixed {t : FixedType} {v : List UInt8} :
    Suffices t.id v ↔ t.size ≤ v.length := by
  obtain ⟨hnone, hblob, hstring, hbigint⟩ := t.id_ne
  constructor
  · intro h
    generalize hid : t.id = dt at h
    cases h with
    | none => exact absurd hid hnone
    | fixed t' v hle =>
      have hsize : t'.size = t.size := by
        revert hid
        cases t <;> cases t' <;> decide
      omega
    | blob => exact absurd hid hblob
    | string => exact absurd hid hstring
    | bigint => exact absurd hid hbigint
  · exact Suffices.fixed t v

theorem suffices_blob {v : List UInt8} :
    Suffices dtypeBlob v ↔ 4 ≤ v.length ∧ 4 + leNat (v.take 4) ≤ v.length := by
  constructor
  · intro h
    generalize hid : dtypeBlob = dt at h
    cases h with
    | blob v hfour hall => exact ⟨hfour, hall⟩
    | fixed t => exact absurd hid.symm t.id_ne.2.1
    | none => cases hid
    | string => cases hid
    | bigint => cases hid
  · rintro ⟨hfour, hall⟩
    exact Suffices.blob v hfour hall

theorem suffices_string {v : List UInt8} : Suffices dtypeString v ↔ 1 ≤ v.length := by
  constructor
  · intro h
    generalize hid : dtypeString = dt at h
    cases h with
    | string v hle => exact hle
    | fixed t => exact absurd hid.symm t.id_ne.2.2.1
    | none => cases hid
    | blob => cases hid
    | bigint => cases hid
  · exact Suffices.string v

theorem suffices_bigint {v : List UInt8} : Suffices dtypeBigint v ↔ 2 ≤ v.length := by
  constructor
  · intro h
    generalize hid : dtypeBigint = dt at h
    cases h with
    | bigint v hle => exact hle
    | fixed t => exact absurd hid.symm t.id_ne.2.2.2
    | none => cases hid
    | blob => cases hid
    | string => cases hid
  · exact Suffices.bigint v

/-- A decoder that keeps to its memory loads a value just when its bytes are enough. -/
theorem loadFrom_ok_iff {dt : UInt8} {impl : Implementor} (h : getImplementor dt = some impl)
    {src : List UInt8} (hkeeps : ¬ Oversteps dt src) :
    (∃ r, impl.loadFrom src impl.init = .ok r) ↔ Suffices dt src := by
  rcases implementor_cases h with ⟨t, rfl, rfl⟩ | ⟨rfl, rfl⟩ | ⟨rfl, rfl⟩ | ⟨rfl, rfl⟩ | ⟨rfl, rfl⟩
  · rw [suffices_fixed]
    constructor
    · rintro ⟨r, hr⟩
      obtain ⟨u, hreq, -⟩ := bind_eq_ok.mp hr
      exact requireAtLeast_eq_ok hreq
    · intro hle
      refine ⟨(.memory (src.take t.size), t.size), ?_⟩
      simp only [staticImplementor, requireAtLeast_ok hle, bind_ok]
  · rw [suffices_blob]
    have hbound : 4 ≤ src.length → leNat (src.take 4) < 4294967292 := by
      intro hfour
      by_contra hge
      exact hkeeps (Or.inr (Or.inl ⟨rfl, hfour, by omega⟩))
    constructor
    · rintro ⟨r, hr⟩
      obtain ⟨u, hfour, hr⟩ := bind_eq_ok.mp hr
      obtain ⟨u', hall, -⟩ := bind_eq_ok.mp hr
      have hfour' := requireAtLeast_eq_ok hfour
      have hall' := requireAtLeast_eq_ok hall
      have hn := hbound hfour'
      exact ⟨hfour', by omega⟩
    · rintro ⟨hfour, hall⟩
      have hn := hbound hfour
      have hsum : (leNat (src.take 4) + 4) % 4294967296 = leNat (src.take 4) + 4 :=
        Nat.mod_eq_of_lt (by omega)
      have hreq : requireAtLeast src.length (leNat (src.take 4) + 4) = .ok () :=
        requireAtLeast_ok (by omega)
      refine ⟨(.memory (src.take (leNat (src.take 4) + 4)), leNat (src.take 4) + 4), ?_⟩
      simp only [blobImplementor, requireAtLeast_ok hfour, bind_ok, hsum, hreq, Nat.lt_irrefl,
        if_false]
  · -- only the empty buffer is too short for a STRING, and there the decoder oversteps
    have hne : src ≠ [] := fun hnil => hkeeps (Or.inl ⟨rfl, hnil⟩)
    obtain ⟨str, hstr⟩ := getStringMxsz_ne_nil hne
    refine iff_of_true ⟨(.memory (str.1.take (str.2 + 1)), str.2 + 1), ?_⟩ ?_
    · simp only [stringImplementor, hstr, bind_ok]
    · exact suffices_string.mpr (List.length_pos_of_ne_nil hne)
  · exact iff_of_true ⟨_, rfl⟩ (.none src)
  · rw [suffices_bigint]
    constructor
    · rintro ⟨r, hr⟩
      obtain ⟨b, -, hr⟩ := bind_eq_ok.mp hr
      obtain ⟨u, htwo, -⟩ := bind_eq_ok.mp hr
      exact requireAtLeast_eq_ok htwo
    · intro htwo
      have hends : ¬ Bigint.Overruns (textOf src) := fun hover =>
        hkeeps (Or.inr (Or.inr ⟨rfl, htwo, hover⟩))
      have hload := bigint_loadFrom_textOf htwo {}
      rw [readBigint_ok hends, bind_ok] at hload
      exact ⟨_, hload⟩

/-- Only types of the grammar suffice for anything. -/
theorem Suffices.hasType {dt : UInt8} {v : List UInt8} (h : Suffices dt v) : hasType dt = true := by
  cases h with
  | none => rfl
  | fixed t => rw [StateDb.hasType, getImplementor_fixed]; rfl
  | blob => rfl
  | string => rfl
  | bigint => rfl

/-- A type of the grammar loads an object just when its bytes are enough. -/
theorem load_ok_iff {dt : UInt8} (htype : hasType dt = true) (key : Key) {src : List UInt8}
    (hkeeps : ¬ Oversteps dt src) :
    (∃ obj, DbObject.load dt key src = .ok obj) ↔ Suffices dt src := by
  obtain ⟨impl, himpl⟩ := Option.isSome_iff_exists.mp htype
  rw [← loadFrom_ok_iff himpl hkeeps, DbObject.load_eq himpl]
  constructor
  · rintro ⟨obj, hobj⟩
    obtain ⟨r, hr, -⟩ := bind_eq_ok.mp hobj
    exact ⟨r, hr⟩
  · rintro ⟨r, hr⟩
    exact ⟨⟨dt, key, r.1⟩, by rw [hr, bind_ok]⟩

/-! ## The handler -/

/-- The grammar, by the place where the key ends. -/
theorem setGrammar_iff {body : List UInt8} : SetGrammar body ↔
    ∃ dtype value, body.drop ((cstr body).length + 1) = dtype :: value ∧ Suffices dtype value := by
  constructor
  · rintro ⟨p, dtype, hfirst, hzero, hlen, hdtype, hsuff⟩
    have hkey : (0 : UInt8) ∉ body.take p := by
      intro hmem
      obtain ⟨i, hi⟩ := List.mem_iff_getElem?.mp hmem
      have hip : i < p := by
        by_contra hge
        rw [List.getElem?_eq_none (by rw [List.length_take]; omega)] at hi
        cases hi
      rw [List.getElem?_take_of_lt hip] at hi
      exact hfirst i hip hi
    obtain ⟨hp, hzero⟩ := List.getElem?_eq_some_iff.mp hzero
    obtain ⟨hp', hdtype⟩ := List.getElem?_eq_some_iff.mp hdtype
    have hdrop : body.drop p = 0 :: body.drop (p + 1) := by
      rw [List.drop_eq_getElem_cons hp, hzero]
    have hcstr : cstr body = body.take p := by
      have hbody : body = body.take p ++ 0 :: body.drop (p + 1) := by
        rw [← hdrop, List.take_append_drop]
      exact (congrArg cstr hbody).trans (cstr_append_zero _ hkey)
    refine ⟨dtype, body.drop (p + 2), ?_, hsuff⟩
    rw [hcstr, List.length_take, Nat.min_eq_left (Nat.le_of_lt hp), List.drop_eq_getElem_cons hp',
      hdtype]
  · rintro ⟨dtype, value, hparts, hsuff⟩
    have hlen := congrArg List.length hparts
    rw [List.length_drop, List.length_cons] at hlen
    have hall : body = cstr body ++ 0 :: dtype :: value := by
      apply (eq_body_of_parts hparts).trans
      simp [SetRequest.body, Key.bytes, Key.ofBuffer]
    refine ⟨(cstr body).length, dtype, ?_, ?_, by omega, ?_, ?_⟩
    · intro i hi hget
      rw [hall, List.getElem?_append_left (by simpa using hi)] at hget
      exact zero_notMem_cstr body (List.mem_of_getElem? hget)
    · have hat := congrArg (fun l => l[(cstr body).length]?) hall
      exact hat.trans (by simp)
    · have hat := congrArg (fun l => l[0]?) hparts
      simpa using hat
    · have hvalue := congrArg (List.drop 1) hparts
      rw [List.drop_drop] at hvalue
      rw [hvalue]
      exact hsuff

/-- On a body whose decoder keeps to its memory, the handler accepts by the grammar and
refuses otherwise. -/
theorem setsByGrammar_of_keeps {w : Nat} {db : Db} {body : List UInt8}
    (hkeeps : ¬ SetOversteps body) : SetsByGrammar w db body := by
  unfold SetsByGrammar
  rw [setGrammar_iff]
  cases hparts : body.drop ((cstr body).length + 1) with
  | nil =>
    rw [setHandler_short hparts]
    exact ⟨iff_of_false (by simp) (by simp), fun _ => ⟨_, rfl⟩⟩
  | cons dtype value =>
    rw [setOversteps_iff hparts] at hkeeps
    have hsplit : (∃ dtype' value', dtype :: value = dtype' :: value' ∧ Suffices dtype' value') ↔
        Suffices dtype value := by
      constructor
      · rintro ⟨dtype', value', heq, hsuff⟩
        obtain ⟨rfl, rfl⟩ := List.cons.inj heq
        exact hsuff
      · intro hsuff
        exact ⟨dtype, value, rfl, hsuff⟩
    rw [setHandler_parts hparts, hsplit]
    by_cases htype : hasType dtype = true
    · simp only [htype, not_true_eq_false, if_false]
      rw [← load_ok_iff htype (Key.ofBuffer body) hkeeps]
      have hthrows := (DbObject.load_throws_iff htype (Key.ofBuffer body) value).mpr hkeeps
      cases hload : DbObject.load dtype (Key.ofBuffer body) value with
      | ok obj =>
        rw [Db.setValue_of_load hload]
        exact ⟨iff_of_true ⟨_, _, rfl⟩ ⟨obj, rfl⟩, fun hno => absurd ⟨obj, rfl⟩ hno⟩
      | error e =>
        obtain rfl := hthrows e hload
        rw [Db.setValue_of_error hload]
        exact ⟨iff_of_false (by simp) (by simp), fun _ => ⟨_, rfl⟩⟩
    · rw [if_pos htype]
      exact ⟨iff_of_false (by simp) fun hsuff => htype hsuff.hasType, fun _ => ⟨_, rfl⟩⟩

/-- Where a decoder leaves its memory, the handler neither accepts nor refuses. -/
theorem not_setsByGrammar {w : Nat} {db : Db} {body : List UInt8} (h : SetOversteps body) :
    ¬ SetsByGrammar w db body := by
  obtain ⟨e, hfault⟩ := (setHandler_fault_iff w db body).mpr h
  rintro ⟨haccepts, hrefuses⟩
  rw [hfault] at haccepts hrefuses
  by_cases hgrammar : SetGrammar body
  · obtain ⟨db', key, heq⟩ := haccepts.mpr hgrammar
    cases heq
  · obtain ⟨text, heq⟩ := hrefuses hgrammar
    cases heq

/-- The handler accepts the bodies of the grammar and refuses all others, but for those
on which a decoder leaves its memory. -/
theorem setsByGrammar_iff (w : Nat) (db : Db) (body : List UInt8) :
    SetsByGrammar w db body ↔ ¬ SetOversteps body := by
  constructor
  · intro hgrammar hover
    exact not_setsByGrammar hover hgrammar
  · exact setsByGrammar_of_keeps

/-- A STRING without a byte of value is not of the grammar, but `get_string_mxsz` writes
in front of it. -/
theorem emptyString_not_setsByGrammar :
    ¬ SetGrammar (keyAb.bytes ++ [dtypeString]) ∧
      ¬ SetsByGrammar 64 Db.empty (keyAb.bytes ++ [dtypeString]) := by
  refine ⟨?_, not_setsByGrammar ⟨dtypeString, [], rfl, Or.inl ⟨rfl, rfl⟩⟩⟩
  rw [setGrammar_iff]
  rintro ⟨dtype, value, hparts, hsuff⟩
  obtain ⟨rfl, rfl⟩ := List.cons.inj (hparts : [dtypeString] = dtype :: value)
  exact absurd (suffices_string.mp hsuff) (by decide)

end StateDb
