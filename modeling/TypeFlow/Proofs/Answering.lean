import TypeFlow.Proofs.Checking

/-! Whether the check of a function gives an answer. Most of what it reports is shown under a name,
which it looks up by the number that a value gives for its own. Where such a number names nothing
there is no answer; nothing else keeps the check from giving one. -/

namespace TypeFlow

namespace Func

/-- The number that a value gives for its own names a value, though maybe another one. -/
def SelfNamed (fn : Func) : Prop := ∀ v ∈ fn.values, fn.hasValue v.id = true

instance (fn : Func) : Decidable fn.SelfNamed :=
  inferInstanceAs (Decidable (∀ v ∈ fn.values, fn.hasValue v.id = true))

variable {fn : Func}

theorem hasValue_iff {i : ValueId} : fn.hasValue i = true ↔ ∃ v, fn.value? i = some v :=
  inRange_iff

theorem valueName?_eq_none_iff {i : ValueId} : fn.valueName? i = none ↔ fn.hasValue i = false := by
  rw [← Bool.not_eq_true, hasValue_iff]
  cases hv : fn.value? i <;> simp [valueName?, hv]

theorem not_selfNamed_iff : ¬ fn.SelfNamed ↔ ∃ v ∈ fn.values, fn.hasValue v.id = false := by
  simp [SelfNamed]

namespace SelfNamed

theorem exists_name (h : fn.SelfNamed) {v : Value} (hv : v ∈ fn.values) :
    ∃ name, fn.valueName? v.id = some name := by
  obtain ⟨w, hw⟩ := hasValue_iff.mp (h v hv)
  exact exists_valueName hw

theorem operandDefects? (h : fn.SelfNamed) {user : Value} (hu : user ∈ fn.values) (o : Operand) :
    fn.operandDefects? user o ≠ none := by
  obtain ⟨name, hname⟩ := h.exists_name hu
  cases o with
  | literal lit =>
    simp only [Func.operandDefects?, hname]
    split <;> simp
  | value id =>
    cases hv : fn.value? id with
    | none => simp [Func.operandDefects?, hv, hname]
    | some used =>
      obtain ⟨other, hother⟩ := h.exists_name (mem_of_lookup hv)
      simp only [Func.operandDefects?, hv, hname, hother]
      split <;> simp

theorem edgeDefects? (h : fn.SelfNamed) {b : Block} {phi : Value} (hphi : phi ∈ fn.values)
    (seen : List BlockId) (edges : List Incoming) : fn.edgeDefects? b phi seen edges ≠ none := by
  obtain ⟨name, hname⟩ := h.exists_name hphi
  induction edges generalizing seen with
  | nil => simp [Func.edgeDefects?]
  | cons e edges ih =>
    obtain ⟨operand, hoperand⟩ := Option.ne_none_iff_exists'.mp (h.operandDefects? hphi e.arg)
    obtain ⟨others, hothers⟩ := Option.ne_none_iff_exists'.mp (ih (e.pred :: seen))
    by_cases hs : e.pred ∈ seen <;> by_cases hp : e.pred ∈ b.preds <;>
      simp [Func.edgeDefects?, hs, hp, hname, hoperand, hothers]

theorem phiDefects? (h : fn.SelfNamed) (b : Block) (id : ValueId) : fn.phiDefects? b id ≠ none := by
  cases hv : fn.value? id with
  | none => simp [Func.phiDefects?, hv]
  | some phi =>
    obtain ⟨name, hname⟩ := exists_valueName hv
    obtain ⟨edges, hedges⟩ :=
      Option.ne_none_iff_exists'.mp (h.edgeDefects? (b := b) (mem_of_lookup hv) [] phi.edges)
    simp [Func.phiDefects?, hv, hname, hedges]

theorem instrDefects? (h : fn.SelfNamed) (b : Block) (last : Bool) (id : ValueId) :
    fn.instrDefects? b last id ≠ none := by
  cases hv : fn.value? id with
  | none => simp [Func.instrDefects?, hv]
  | some v =>
    obtain ⟨name, hname⟩ := exists_valueName hv
    have hargs : v.args.mapM (fn.operandDefects? v) ≠ none := by
      intro hnone
      obtain ⟨o, -, ho⟩ := mapM_eq_none_iff.mp hnone
      exact h.operandDefects? (mem_of_lookup hv) o ho
    obtain ⟨reports, hreports⟩ := Option.ne_none_iff_exists'.mp hargs
    simp only [Func.instrDefects?, hv, hname, hreports]
    by_cases hop : (!v.op.isValid || v.isPhi) = true <;> simp [hop]

theorem instrsDefects? (h : fn.SelfNamed) (b : Block) (ids : List ValueId) :
    fn.instrsDefects? b ids ≠ none := by
  induction ids with
  | nil => simp [Func.instrsDefects?]
  | cons id ids ih =>
    obtain ⟨first, hfirst⟩ :=
      Option.ne_none_iff_exists'.mp (h.instrDefects? b ids.isEmpty id)
    obtain ⟨others, hothers⟩ := Option.ne_none_iff_exists'.mp ih
    simp [Func.instrsDefects?, hfirst, hothers]

theorem blockDefects? (h : fn.SelfNamed) (index : Nat) (b : Block) :
    fn.blockDefects? index b ≠ none := by
  have hphis : b.phis.mapM (fn.phiDefects? b) ≠ none := by
    intro hnone
    obtain ⟨id, -, hid⟩ := mapM_eq_none_iff.mp hnone
    exact h.phiDefects? b id hid
  obtain ⟨phis, hphis⟩ := Option.ne_none_iff_exists'.mp hphis
  obtain ⟨instrs, hinstrs⟩ := Option.ne_none_iff_exists'.mp (h.instrsDefects? b b.instrs)
  simp [Func.blockDefects?, hphis, hinstrs]

theorem blocksDefects? (h : fn.SelfNamed) :
    (fn.blocks.zipIdx.mapM fun (b, i) => (fn.blockDefects? i b).map fun ds =>
      ds.map fun d => Problem.mk (some b.label) d) ≠ none := by
  intro hnone
  obtain ⟨⟨b, i⟩, -, hb⟩ := mapM_eq_none_iff.mp hnone
  exact h.blockDefects? i b (Option.map_eq_none_iff.mp hb)

theorem useDefects? (h : fn.SelfNamed) {used : Value} (hu : used ∈ fn.values) (use : Use) :
    fn.useDefects? used use ≠ none := by
  obtain ⟨name, hname⟩ := h.exists_name hu
  cases hv : fn.value? use.user with
  | none => simp [Func.useDefects?, hv, hname]
  | some user =>
    obtain ⟨other, hother⟩ := h.exists_name (mem_of_lookup hv)
    by_cases hb : user.block = use.block <;> by_cases hr : user.refersTo used.id = true <;>
      simp [Func.useDefects?, hv, hname, hother, hb, hr]

theorem usesDefects? (h : fn.SelfNamed) {used : Value} (hu : used ∈ fn.values) :
    fn.usesDefects? used ≠ none := by
  intro hnone
  obtain ⟨use, -, huse⟩ := mapM_eq_none_iff.mp (Option.map_eq_none_iff.mp hnone)
  exact h.useDefects? hu use huse

end SelfNamed

/-- A value is looked up under its number only where it stands at another place. -/
theorem valueDefects?_eq_none_iff {index : Nat} (hlt : index < fn.values.length) {v : Value} :
    fn.valueDefects? index v = none ↔ fn.hasValue v.id = false := by
  by_cases hid : v.id = index
  · have hhere : fn.hasValue index = true := by simp [hasValue, hlt]
    simp [valueDefects?, hid, hhere]
  · rw [← valueName?_eq_none_iff]
    cases hname : fn.valueName? v.id <;> simp [valueDefects?, hid, hname]

theorem valuesDefects?_eq_none_iff :
    (fn.values.zipIdx.mapM fun (v, i) => fn.valueDefects? i v) = none ↔ ¬ fn.SelfNamed := by
  rw [mapM_eq_none_iff, not_selfNamed_iff]
  constructor
  · rintro ⟨⟨v, i⟩, hm, hnone⟩
    have hi := List.mk_mem_zipIdx_iff_getElem?.mp hm
    exact ⟨v, List.mem_of_getElem? hi,
      (valueDefects?_eq_none_iff (List.getElem?_eq_some_iff.mp hi).1).mp hnone⟩
  · rintro ⟨v, hv, hno⟩
    obtain ⟨i, hi⟩ := List.getElem?_of_mem hv
    exact ⟨(v, i), List.mk_mem_zipIdx_iff_getElem?.mpr hi,
      (valueDefects?_eq_none_iff (List.getElem?_eq_some_iff.mp hi).1).mpr hno⟩

theorem problems?_eq_none_iff :
    fn.problems? = none ↔ fn.hasBlock fn.entry = true ∧ ¬ fn.SelfNamed := by
  cases hentry : fn.hasBlock fn.entry with
  | false => simp [problems?, hentry]
  | true =>
    simp only [true_and]
    constructor
    · intro hnone hself
      have huses : fn.values.mapM fn.usesDefects? ≠ none := by
        intro hu
        obtain ⟨v, hv, hu⟩ := mapM_eq_none_iff.mp hu
        exact hself.usesDefects? hv hu
      obtain ⟨blocks, hblocks⟩ := Option.ne_none_iff_exists'.mp hself.blocksDefects?
      obtain ⟨values, hvalues⟩ :=
        Option.ne_none_iff_exists'.mp (mt valuesDefects?_eq_none_iff.mp (not_not_intro hself))
      obtain ⟨uses, huses⟩ := Option.ne_none_iff_exists'.mp huses
      simp [problems?, hentry, hblocks, hvalues, huses] at hnone
    · intro hself
      have hvalues := valuesDefects?_eq_none_iff.mpr hself
      simp [problems?, hentry, hvalues]

/-- What stands in another place than its number says is reported under the name of what is
there. -/
theorem misplaced_mem_problems {problems : List Problem} (h : fn.problems? = some problems)
    (hentry : fn.hasBlock fn.entry = true) {i : Nat} {v : Value} (hi : fn.values[i]? = some v)
    (hne : v.id ≠ i) :
    ∃ name, fn.valueName? v.id = some name ∧ ⟨none, .misplacedValue name v.id i⟩ ∈ problems := by
  have hm : (v, i) ∈ fn.values.zipIdx := List.mk_mem_zipIdx_iff_getElem?.mpr hi
  simp only [problems?, hentry, Bool.not_true, Bool.false_eq_true, if_false, Option.bind_eq_bind,
    Option.bind_eq_some_iff, Option.pure_def, Option.some.injEq] at h
  obtain ⟨blocks, -, values, hvalues, uses, -, rfl⟩ := h
  obtain ⟨report, hreport, hfound⟩ := exists_mem_of_mapM hvalues hm
  cases hname : fn.valueName? v.id with
  | none => simp [valueDefects?, hne, hname] at hfound
  | some name =>
    obtain rfl : [.misplacedValue name v.id i] = report := by
      simpa [valueDefects?, hne, hname] using hfound
    refine ⟨name, rfl, List.mem_append_right _ (List.mem_map.mpr ⟨_, ?_, rfl⟩)⟩
    exact List.mem_flatten.mpr
      ⟨_, List.mem_append_left _ hreport, List.mem_singleton_self _⟩

/-- A function whose only value gives a number that names nothing. -/
def stray : Func where
  name := "f"
  entry := 0
  blocks := [{ id := 0, name := "entry", instrs := [0] }]
  values := [{ id := 5, block := 0, op := .ret }]

theorem stray_unanswered : stray.problems? = none := by decide

/-- The check gives no answer just if the entry exists and some value gives a number for its own that
names nothing. A missing entry is reported alone. Otherwise every value that stands in another place
than its number says is among the problems. -/
theorem check_unanswered_iff (fn : Func) :
    (fn.problems? = none ↔
      fn.hasBlock fn.entry = true ∧ ∃ v ∈ fn.values, fn.hasValue v.id = false) ∧
    (fn.hasBlock fn.entry = false → fn.problems? = some [⟨none, .badEntry fn.entry⟩]) ∧
    ∀ problems, fn.problems? = some problems → fn.hasBlock fn.entry = true →
      ∀ (i : Nat) v, fn.values[i]? = some v → v.id ≠ i →
        ∃ name, fn.valueName? v.id = some name ∧
          ⟨none, .misplacedValue name v.id i⟩ ∈ problems := by
  refine ⟨?_, fun hentry => ?_, fun problems h hentry i v hi hne => ?_⟩
  · rw [problems?_eq_none_iff, not_selfNamed_iff]
  · simp [problems?, hentry]
  · exact misplaced_mem_problems h hentry hi hne

/-- A function whose two values give each other's numbers. -/
def swapped : Func where
  name := "f"
  entry := 0
  blocks := [{ id := 0, name := "entry", instrs := [0, 1] }]
  values := [{ id := 1, name := "x", block := 0, op := .arg, args := [.literal (.ofInt 0)] },
    { id := 0, block := 0, op := .ret, args := [.value 0] }]

/-- Each of the two values is reported under the other's name. The number of the stray value names
nothing. -/
theorem check_unanswered_iff_swapped :
    (∃ v ∈ stray.values, stray.hasValue v.id = false) ∧ ∃ problems,
      swapped.problems? = some problems ∧ ⟨none, .misplacedValue "v1" 1 0⟩ ∈ problems ∧
        ⟨none, .misplacedValue "x" 0 1⟩ ∈ problems := by
  refine ⟨((check_unanswered_iff stray).1.mp (by decide)).2, ?_⟩
  obtain ⟨problems, hp⟩ := Option.ne_none_iff_exists'.mp
    (show swapped.problems? ≠ none by decide)
  have hreported := (check_unanswered_iff swapped).2.2 problems hp (by decide)
  obtain ⟨first, hfirst, hm⟩ := hreported 0 _ rfl (by decide)
  obtain ⟨second, hsecond, hm'⟩ := hreported 1 _ rfl (by decide)
  obtain rfl : Text.ofString "v1" = first :=
    Option.some.inj ((show swapped.valueName? 1 = some "v1" by decide).symm.trans hfirst)
  obtain rfl : Text.ofString "x" = second :=
    Option.some.inj ((show swapped.valueName? 0 = some "x" by decide).symm.trans hsecond)
  exact ⟨problems, hp, hm, hm'⟩

end Func

end TypeFlow
