import TypeFlow.Proofs.Layering
import TypeFlow.Proofs.Numeral
import TypeFlow.Target

/-! The target that a configuration selects. Opcodes are enabled and then disabled one by one, but
what comes out depends only on what the two lists hold, so their order, repeats and normal form do
not matter. -/

namespace TypeFlow

namespace Opcode

theorem code_ofCode (code : UInt8) : (ofCode code).code = code := by
  revert code
  apply Number.forall_byte
  decide +kernel

theorem ofCode_eq_of_toNat_eq {op : Opcode} (h : op.isValid = true) {code : UInt8}
    (he : (code.toNat : Int) = op.code.toNat) : ofCode code = op := by
  have hall : ∀ op ∈ all, ofCode op.code = op := by decide +kernel
  obtain rfl : code = op.code := UInt8.toNat_inj.mp (Int.natCast_inj.mp he)
  exact hall op (mem_all h)

end Opcode

namespace Target

/-- The opcodes that a list can stand for. -/
def Selectable (op : Opcode) : Prop := op.isValid = true ∧ op ≠ .phi

/-- An element of a list is `all` or the name of an opcode that can be selected. -/
def Known (e : Text) : Prop := e = "all" ∨ ∃ op, Selectable op ∧ op.text = e

/-- A list stands for the opcodes that it names, and for all if it says so. -/
def Lists (list : List Text) (op : Opcode) : Prop :=
  Selectable op ∧ (op.text ∈ list ∨ ("all" : Text) ∈ list)

/-- The opcodes that the elements of a list stand for, one element after the other. -/
def expanded (list : List Text) : List Opcode := list.flatMap fun e => (selected? e).getD []

theorem mem_allOps_iff {op : Opcode} : op ∈ allOps ↔ Selectable op := by
  simp only [allOps, List.mem_filter, bne_iff_ne, Selectable]
  exact and_congr_left fun _ => ⟨Opcode.isValid_of_mem_all, Opcode.mem_all⟩

theorem selected?_of_ne {e : Text} (h : e ≠ "all") :
    selected? e = ((Opcode.ofName? e).filter (· ≠ .phi)).map ([·]) := by
  rw [selected?, if_neg h]
  split
  · next hop => simp [hop]
  · next hop => simp [hop]
  · next op hphi hop => simpa [hop] using hphi

theorem selected?_eq_none_iff {e : Text} : selected? e = none ↔ ¬ Known e := by
  by_cases hall : e = "all"
  · simp [hall, selected?, Known]
  · rw [selected?_of_ne hall]
    simp only [Option.map_eq_none_iff, Option.filter_eq_none_iff, Opcode.ofName?_eq_some_iff, Known,
      hall, false_or, Selectable]
    constructor
    · rintro h ⟨op, ⟨hvalid, hphi⟩, htext⟩
      exact h op ⟨hvalid, htext⟩ (by simpa using hphi)
    · intro h op hop hphi
      exact h ⟨op, ⟨hop.1, by simpa using hphi⟩, hop.2⟩

theorem mem_selected_iff {e : Text} {op : Opcode} :
    op ∈ (selected? e).getD [] ↔ Selectable op ∧ (op.text = e ∨ e = "all") := by
  by_cases hall : e = "all"
  · simp [hall, selected?, mem_allOps_iff]
  · rw [selected?_of_ne hall]
    have hmem : op ∈ (((Opcode.ofName? e).filter (· ≠ .phi)).map ([·])).getD [] ↔
        Opcode.ofName? e = some op ∧ op ≠ .phi := by
      cases Opcode.ofName? e with
      | none => simp
      | some found =>
        by_cases hphi : found = .phi <;> by_cases hop : op = found <;>
          simp_all [Option.filter, eq_comm]
    rw [hmem, Opcode.ofName?_eq_some_iff]
    simp only [Selectable, hall, or_false]
    exact and_right_comm

theorem mem_expanded_iff {list : List Text} {op : Opcode} :
    op ∈ expanded list ↔ Lists list op := by
  simp only [expanded, List.mem_flatMap, mem_selected_iff, Lists]
  constructor
  · rintro ⟨e, he, hop, rfl | rfl⟩
    · exact ⟨hop, Or.inl he⟩
    · exact ⟨hop, Or.inr he⟩
  · rintro ⟨hop, htext | hall⟩
    · exact ⟨op.text, htext, hop, Or.inl rfl⟩
    · exact ⟨_, hall, hop, Or.inr rfl⟩

theorem adjust_eq_ok_iff {error : Text → Error} {change : Target → Opcode → Target} {t t' : Target}
    {list : List Text} :
    adjust error change t list = .ok t' ↔
      (∀ e ∈ list, Known e) ∧ t' = (expanded list).foldl change t := by
  induction list generalizing t with
  | nil => simp [adjust, expanded, eq_comm]
  | cons e list ih =>
    have hknown : Known e ↔ selected? e ≠ none := by simp [selected?_eq_none_iff]
    rw [adjust, List.forall_mem_cons, hknown]
    cases hsel : selected? e with
    | none => simp
    | some ops => simp [ih, expanded, hsel]

theorem contains_foldl_enable {ops : List Opcode} {t : Target} {x : Int} :
    (ops.foldl enable t).codes.contains x = true ↔
      t.codes.contains x = true ∨ ∃ op ∈ ops, x = op.code.toNat := by
  induction ops generalizing t with
  | nil => simp
  | cons op ops ih =>
    rw [List.foldl_cons, ih]
    simp only [enable, IntSet.contains_insert, Bool.or_eq_true, beq_iff_eq, List.mem_cons,
      exists_eq_or_imp]
    rw [or_comm (a := x = _), or_assoc]

theorem contains_foldl_disable {ops : List Opcode} {t : Target} {x : Int} :
    (ops.foldl disable t).codes.contains x = true ↔
      t.codes.contains x = true ∧ ∀ op ∈ ops, x ≠ op.code.toNat := by
  induction ops generalizing t with
  | nil => simp
  | cons op ops ih =>
    rw [List.foldl_cons, ih]
    simp only [disable, IntSet.contains_erase, List.forall_mem_cons]
    rw [and_comm (a := x ≠ _), and_assoc]

theorem name_foldl (change : Target → Opcode → Target) (h : ∀ t op, (change t op).name = t.name)
    (ops : List Opcode) (t : Target) : (ops.foldl change t).name = t.name := by
  induction ops generalizing t with
  | nil => rfl
  | cons op ops ih => rw [List.foldl_cons, ih, h]

/-- What the changes come to when opcodes are enabled and then disabled. -/
def adjusted (base : Target) (enabled disabled : List Text) : Target :=
  (expanded disabled).foldl disable ((expanded enabled).foldl enable base)

theorem select_eq_ok_iff {name : Text} {enabled disabled : List Text} {t : Target} :
    select name enabled disabled = .ok t ↔ ∃ base, named name = .ok base ∧
      ((∀ e ∈ enabled, Known e) ∧ ∀ e ∈ disabled, Known e) ∧
      t = base.adjusted enabled disabled := by
  unfold select
  cases named name with
  | error e => simp [bind, Except.bind]
  | ok base =>
    simp only [bind, Except.bind, Except.ok.injEq, exists_eq_left']
    cases hadjust : adjust .unknownEnabled enable base enabled with
    | error e =>
      have hunknown : ¬ ∀ e ∈ enabled, Known e := by
        intro hall
        have hok : adjust .unknownEnabled enable base enabled = .ok _ :=
          adjust_eq_ok_iff.mpr ⟨hall, rfl⟩
        cases hadjust.symm.trans hok
      simp [hunknown]
    | ok mid =>
      obtain ⟨hall, rfl⟩ := adjust_eq_ok_iff.mp hadjust
      rw [adjust_eq_ok_iff, adjusted]
      exact and_congr_left fun _ => (and_iff_right hall).symm

theorem contains_adjusted {base : Target} {enabled disabled : List Text} {x : Int} :
    (base.adjusted enabled disabled).codes.contains x = true ↔
      (base.codes.contains x = true ∨ ∃ op, Lists enabled op ∧ x = op.code.toNat) ∧
        ∀ op, Lists disabled op → x ≠ op.code.toNat := by
  simp only [adjusted, contains_foldl_disable, contains_foldl_enable, mem_expanded_iff]

theorem adjusted_congr (base : Target) {enabled enabled' disabled disabled' : List Text}
    (he : ∀ op, Lists enabled op ↔ Lists enabled' op)
    (hd : ∀ op, Lists disabled op ↔ Lists disabled' op) :
    base.adjusted enabled disabled = base.adjusted enabled' disabled' := by
  have hcodes : (base.adjusted enabled disabled).codes = (base.adjusted enabled' disabled').codes := by
    refine IntSet.ext_of_contains fun x => ?_
    rw [Bool.eq_iff_iff, contains_adjusted, contains_adjusted]
    simp only [he, hd]
  have hname : ∀ e d, (base.adjusted e d).name = base.name := by
    intro e d
    rw [adjusted, name_foldl disable fun _ _ => rfl, name_foldl enable fun _ _ => rfl]
  have hsame := (hname enabled disabled).trans (hname enabled' disabled').symm
  cases h : base.adjusted enabled disabled
  cases h' : base.adjusted enabled' disabled'
  simp_all

theorem select_congr {name : Text} {enabled enabled' disabled disabled' : List Text}
    (he : ∀ op, Lists enabled op ↔ Lists enabled' op)
    (hd : ∀ op, Lists disabled op ↔ Lists disabled' op)
    (hke : (∀ e ∈ enabled, Known e) ↔ ∀ e ∈ enabled', Known e)
    (hkd : (∀ e ∈ disabled, Known e) ↔ ∀ e ∈ disabled', Known e) (t : Target) :
    select name enabled disabled = .ok t ↔ select name enabled' disabled' = .ok t := by
  simp only [select_eq_ok_iff, adjusted_congr _ he hd, hke, hkd]

theorem lists_congr {list list' : List Text} (h : ∀ x, x ∈ list ↔ x ∈ list') (op : Opcode) :
    Lists list op ↔ Lists list' op := by
  simp only [Lists, h]

/-- A list has a normal form that stands for the same, if all its elements stand for something. -/
theorem exists_normalList_of_known {list : List Text} (h : ∀ e ∈ list, Known e) :
    ∃ out, Config.normalList list = .ok out ∧ (∀ e ∈ out, Known e) ∧
      ∀ op, Lists list op ↔ Lists out op := by
  have hinherit : ("inherit" : Text) ∉ list := by
    intro hm
    have hnone : selected? "inherit" = none := by decide +kernel
    exact selected?_eq_none_iff.mp hnone (h _ hm)
  obtain ⟨out, hout, hnormal⟩ := Config.exists_normalList hinherit
  refine ⟨out, hout, ?_⟩
  by_cases hall : ("all" : Text) ∈ list
  · obtain rfl := hnormal.all hall
    refine ⟨fun e he => Or.inl (List.mem_singleton.mp he), fun op => ?_⟩
    simp [Lists, hall]
  · have hmem := hnormal.mem_iff hall
    exact ⟨fun e he => h e ((hmem e).mp he), lists_congr fun x => (hmem x).symm⟩

theorem exists_named_iff {name : Text} : (∃ base, named name = .ok base) ↔ name ∈ names := by
  simp only [named, names, List.mem_map]
  cases hfind : builtin.find? (·.name == name) with
  | none =>
    have hno := List.find?_eq_none.mp hfind
    simp only [reduceCtorEq, exists_false, false_iff, not_exists, not_and]
    exact fun t ht he => hno t ht (by simpa using he)
  | some base =>
    have hname : base.name = name := by simpa using List.find?_some hfind
    exact ⟨fun _ => ⟨base, List.mem_of_find?_eq_some hfind, hname⟩, fun _ => ⟨base, rfl⟩⟩

theorem exists_select_iff {name : Text} {enabled disabled : List Text} :
    (∃ t, select name enabled disabled = .ok t) ↔
      name ∈ names ∧ ∀ e ∈ enabled ++ disabled, Known e := by
  simp only [select_eq_ok_iff, ← exists_named_iff, List.forall_mem_append]
  constructor
  · rintro ⟨t, base, hbase, hknown, -⟩
    exact ⟨⟨base, hbase⟩, hknown⟩
  · rintro ⟨⟨base, hbase⟩, hknown⟩
    exact ⟨_, base, hbase, hknown, rfl⟩

/-- Built-in targets support what can be selected, and nothing else. -/
theorem selectable_of_named {name : Text} {base : Target} (h : named name = .ok base) {x : Int}
    (hx : base.codes.contains x = true) : ∃ op, Selectable op ∧ x = op.code.toNat := by
  have hall : ∀ t ∈ builtin, ∀ x ∈ t.codes.elems, ∃ op ∈ allOps, x = op.code.toNat := by
    decide +kernel
  have hbase : base ∈ builtin := by
    unfold named at h
    split at h
    · next hfind =>
      cases h
      exact List.mem_of_find?_eq_some hfind
    · cases h
  obtain ⟨op, hop, he⟩ := hall base hbase x (by simpa [IntSet.contains] using hx)
  exact ⟨op, mem_allOps_iff.mp hop, he⟩

/-- A list stands for the opcode of a code just if it stands for one with this code. -/
theorem lists_ofCode_iff {list : List Text} {code : UInt8} :
    Lists list (.ofCode code) ↔ ∃ op, Lists list op ∧ (code.toNat : Int) = op.code.toNat := by
  constructor
  · intro h
    exact ⟨_, h, by rw [Opcode.code_ofCode]⟩
  · rintro ⟨op, hop, he⟩
    rwa [Opcode.ofCode_eq_of_toNat_eq hop.1.1 he]

theorem supports_adjusted {base : Target} {enabled disabled : List Text} {code : UInt8} :
    (base.adjusted enabled disabled).supports (.ofCode code) = true ↔
      ¬ Lists disabled (.ofCode code) ∧
        (base.supports (.ofCode code) = true ∨ Lists enabled (.ofCode code)) := by
  rw [supports, supports, contains_adjusted, Opcode.code_ofCode, lists_ofCode_iff, lists_ofCode_iff,
    and_comm]
  simp only [not_exists, not_and, ne_eq]

theorem selectable_of_select {name : Text} {enabled disabled : List Text} {t : Target}
    (h : select name enabled disabled = .ok t) {code : UInt8}
    (hs : t.supports (.ofCode code) = true) : Selectable (.ofCode code) := by
  obtain ⟨base, hbase, -, rfl⟩ := select_eq_ok_iff.mp h
  rcases (supports_adjusted.mp hs).2 with hs | hlists
  · obtain ⟨op, hop, he⟩ := selectable_of_named hbase hs
    rw [Opcode.code_ofCode] at he
    rwa [Opcode.ofCode_eq_of_toNat_eq hop.1 he]
  · exact hlists.1

/-- Selection fails just if the target or an element of a list is not known. Otherwise an opcode is
supported if it is not disabled and the built-in target supports it or it is enabled; this is never
so of `phi` and of codes without an opcode. Lists of the same elements select the same target, and
so do lists and their normal forms. -/
theorem select_exact (name : Text) (enabled disabled : List Text) :
    ((∃ e, select name enabled disabled = .error e) ↔
      name ∉ names ∨ ∃ e ∈ enabled ++ disabled, ¬ Known e) ∧
    (∀ t, select name enabled disabled = .ok t →
      (∃ base, named name = .ok base ∧ ∀ code, (t.supports (.ofCode code) = true ↔
        ¬ Lists disabled (.ofCode code) ∧
          (base.supports (.ofCode code) = true ∨ Lists enabled (.ofCode code)))) ∧
      ∀ code, t.supports (.ofCode code) = true →
        (Opcode.ofCode code).isValid = true ∧ Opcode.ofCode code ≠ .phi) ∧
    (∀ enabled' disabled', (∀ x, x ∈ enabled ↔ x ∈ enabled') →
      (∀ x, x ∈ disabled ↔ x ∈ disabled') →
      ∀ t, select name enabled disabled = .ok t ↔ select name enabled' disabled' = .ok t) ∧
    ∀ t, select name enabled disabled = .ok t → ∃ enabled' disabled',
      Config.normalList enabled = .ok enabled' ∧ Config.normalList disabled = .ok disabled' ∧
      select name enabled' disabled' = .ok t := by
  refine ⟨?_, fun t h => ?_, fun enabled' disabled' he hd => ?_, fun t h => ?_⟩
  · have herror : (∃ e, select name enabled disabled = .error e) ↔
        ¬ ∃ t, select name enabled disabled = .ok t := by
      cases select name enabled disabled <;> simp
    rw [herror, exists_select_iff]
    simp only [not_and_or, not_forall, exists_prop]
  · refine ⟨?_, fun code hs => selectable_of_select h hs⟩
    obtain ⟨base, hbase, -, rfl⟩ := select_eq_ok_iff.mp h
    exact ⟨base, hbase, fun code => supports_adjusted⟩
  · exact select_congr (lists_congr he) (lists_congr hd) (by simp only [he]) (by simp only [hd])
  · obtain ⟨-, -, ⟨hke, hkd⟩, -⟩ := select_eq_ok_iff.mp h
    obtain ⟨enabled', hnormal, hknown, hlists⟩ := exists_normalList_of_known hke
    obtain ⟨disabled', hnormal', hknown', hlists'⟩ := exists_normalList_of_known hkd
    refine ⟨enabled', disabled', hnormal, hnormal', ?_⟩
    exact (select_congr hlists hlists' (iff_of_true hke hknown) (iff_of_true hkd hknown') t).mp h

/-- All opcodes are enabled and two disabled again; the lists are not in normal form. `sparc` is no
target. -/
theorem select_exact_all :
    (∃ e, select "sparc" [] [] = .error e) ∧ ∃ t,
      select "none" ["br", "all"] ["jmp", "br", "jmp"] = .ok t ∧
      select "none" ["all", "br", "all"] ["br", "jmp"] = .ok t ∧
      (∃ enabled disabled, Config.normalList ["br", "all"] = .ok enabled ∧
        Config.normalList ["jmp", "br", "jmp"] = .ok disabled ∧
        select "none" enabled disabled = .ok t) ∧ t.supports .br = false := by
  refine ⟨(select_exact "sparc" [] []).1.mpr (Or.inl (by decide +kernel)), ?_⟩
  obtain ⟨-, hsupports, hlike, hnormal⟩ := select_exact "none" ["br", "all"] ["jmp", "br", "jmp"]
  cases h : select "none" ["br", "all"] ["jmp", "br", "jmp"] with
  | error e =>
    have hok : (select "none" ["br", "all"] ["jmp", "br", "jmp"]).toOption.isSome = true := by
      decide +kernel
    simp [h, Except.toOption] at hok
  | ok t =>
    obtain ⟨⟨base, -, hiff⟩, -⟩ := hsupports t h
    have hmore := hlike ["all", "br", "all"] ["br", "jmp"] (by grind) (by grind) t
    refine ⟨t, rfl, hmore.mp h, hnormal t h, Bool.eq_false_iff.mpr fun hs => ?_⟩
    have hlists : ¬ Lists ["jmp", "br", "jmp"] .br := ((hiff Opcode.br.code).mp hs).1
    exact hlists ⟨⟨rfl, by decide⟩, Or.inl (by decide +kernel)⟩

end Target

end TypeFlow
