import Mathlib.Data.List.Forall2
import TypeFlow.Proofs.Reading

/-! The grammar of instruction lines. Each reader accepts just what its part of the grammar derives,
and what it answers is what the tokens say, one after the other. -/

namespace TypeFlow

theorem intercalate_cons_eq {α : Type} (sep first : List α) (rest : List (List α)) :
    sep.intercalate (first :: rest) = first ++ rest.flatMap (sep ++ ·) := by
  induction rest generalizing first with
  | nil => simp
  | cons next rest ih => simp [List.intercalate_cons_cons, ih next]

namespace Line

/-- A token stands for a value that it names, or else for a literal. -/
inductive Names.Denotes (names : Names) (token : Text) : Operand → Prop
  | value {id : ValueId} (h : names.value? token = some id) : names.Denotes token (.value id)
  | literal {lit : Literal} (hnone : names.value? token = none)
    (h : Literal.read token = .ok lit) : names.Denotes token (.literal lit)

/-- An edge is written `[ LABEL: OPERAND ]`. -/
inductive IsEdge (names : Names) : List Text → Incoming → Prop
  | mk {label token : Text} {e : Incoming} (hpred : names.block? label = some e.pred)
    (harg : names.Denotes token e.arg) :
    IsEdge names [Text.ofString "[", label ++ Text.ofString ":", token, Text.ofString "]"] e

/-- What may stand behind an opcode: the edges of a φ-node, or operands and as many labels as the
opcode has targets, with commas between them. -/
inductive Completes (names : Names) : Opcode → List Text → Body → Prop
  | phi {groups : List (List Text)} {es : List Incoming}
    (h : List.Forall₂ (IsEdge names) groups es) :
    Completes names .phi ([Text.ofString ","].intercalate groups) (.phi es)
  | instr {op : Opcode} {argTokens labels : List Text} {args : List Operand}
    {targets : List BlockId} (hop : op ≠ .phi) (hargs : List.Forall₂ names.Denotes argTokens args)
    (htargets : List.Forall₂ (fun label id => names.block? label = some id) labels targets)
    (hcount : labels.length = op.targetCount) :
    Completes names op ([Text.ofString ","].intercalate ((argTokens ++ labels).map ([·])))
      (.instr op targets args)

/-- A line is written `[NAME =] OP REST`, and only with an opcode that has a result it has a name.
An empty name is none. -/
inductive Grammatical (names : Names) : List Text → Statement → Prop
  | named {name : Text} {op : Opcode} {rest : List Text} {body : Body} (hname : name ≠ [])
    (hop : op.isValid = true) (hout : op.hasOutput = true) (h : Completes names op rest body) :
    Grammatical names (name :: Text.ofString "=" :: op.text :: rest) ⟨some name, body⟩
  | unnamed {op : Opcode} {rest : List Text} {body : Body} (hop : op.isValid = true)
    (h : Completes names op rest body) : Grammatical names (op.text :: rest) ⟨none, body⟩
  | blank {op : Opcode} {rest : List Text} {body : Body} (hop : op.isValid = true)
    (h : Completes names op rest body) :
    Grammatical names ([] :: Text.ofString "=" :: op.text :: rest) ⟨none, body⟩

/-- No mark is a name. -/
def Names.Unmarked (names : Names) : Prop :=
  ∀ token, isMark token = true → names.block? token = none ∧ names.value? token = none

variable {names : Names} {ts : List Text}

theorem operand_eq_ok_iff {token : Text} {o : Operand} :
    operand names token = .ok o ↔ names.Denotes token o := by
  constructor
  · intro h
    unfold operand at h
    split at h
    · next id hid =>
      cases h
      exact .value hid
    · next hnone =>
      split at h
      · cases h
      · split at h
        · next lit hlit =>
          cases h
          exact .literal hnone hlit
        · cases h
  · intro h
    cases h with
    | value h => simp [operand, h]
    | literal hnone h => simp [operand, hnone, h, Token.not_isName_of_read h]

theorem target_eq_ok_iff {label : Text} {id : BlockId} :
    target names label = .ok id ↔ names.block? label = some id := by
  unfold target
  split <;> simp_all

theorem Names.Unmarked.target (hu : names.Unmarked) {label : Text} {id : BlockId}
    (h : names.block? label = some id) : isMark label = false := by
  refine Bool.eq_false_iff.mpr fun hmark => ?_
  cases (hu label hmark).1.symm.trans h

theorem Names.Unmarked.operand (hu : names.Unmarked) {token : Text} {o : Operand}
    (h : names.Denotes token o) : isMark token = false := by
  refine Bool.eq_false_iff.mpr fun hmark => ?_
  cases h with
  | value h => cases (hu token hmark).2.symm.trans h
  | literal _ h =>
    -- A mark is no literal either.
    have hmarks : ∀ mark ∈ [Text.ofString ",", Text.ofString "[", Text.ofString "]",
        Text.ofString "="], (Literal.read mark).toOption = none := by decide
    have hread := hmarks token (by simpa [isMark, or_assoc] using hmark)
    rw [h] at hread
    cases hread

theorem Names.Good.unmarked (hg : names.Good) : names.Unmarked := by
  have hmarks : ∀ mark ∈ [Text.ofString ",", Text.ofString "[", Text.ofString "]",
      Text.ofString "="], Token.isName mark = false := by decide
  intro token hmark
  have hname := hmarks token (by simpa [isMark, or_assoc] using hmark)
  constructor
  · have hlabel : token ∉ names.labels := by
      intro hm
      rw [hg.label_name token hm] at hname
      cases hname
    rw [Names.block?, List.idxOf?_eq_none_iff.mpr hlabel]
    rfl
  · rw [← Option.not_isSome_iff_eq_none, Names.value?_isSome_iff]
    intro hkey
    obtain ⟨p, hp, rfl⟩ := List.mem_map.mp hkey
    rw [hg.value_name p hp] at hname
    cases hname

theorem itemsAfter_flatMap {is : List Text} (h : ∀ t ∈ is, isMark t = false) (done : List Text) :
    itemsAfter done (is.flatMap fun t => [Text.ofString ",", t]) = .ok (done.reverse ++ is) := by
  induction is generalizing done with
  | nil => simp [itemsAfter]
  | cons t ts ih =>
    obtain ⟨ht, hts⟩ := List.forall_mem_cons.mp h
    simp [itemsAfter, ht, ih hts]

theorem flatMap_of_itemsAfter {done is : List Text} (h : itemsAfter done ts = .ok is) :
    ∃ more, is = done.reverse ++ more ∧ (∀ t ∈ more, isMark t = false) ∧
      ts = more.flatMap fun t => [Text.ofString ",", t] := by
  fun_induction itemsAfter done ts with
  | case1 done =>
    cases h
    exact ⟨[], by simp⟩
  | case2 => cases h
  | case3 => cases h
  | case4 => cases h
  | case5 => cases h
  | case6 done comma token rest hcomma hmark ih =>
    obtain ⟨more, rfl, hmore, rfl⟩ := ih h
    refine ⟨token :: more, by simp, List.forall_mem_cons.mpr ⟨by simpa using hmark, hmore⟩, ?_⟩
    rw [not_not.mp hcomma]
    rfl

theorem items_eq_ok_iff {is : List Text} :
    items ts = .ok is ↔ ts = [Text.ofString ","].intercalate (is.map ([·])) ∧
      ∀ t ∈ is, isMark t = false := by
  have hcons : ∀ (t : Text) more, [Text.ofString ","].intercalate ((t :: more).map ([·])) =
      t :: more.flatMap fun t => [Text.ofString ",", t] := by
    intro t more
    rw [List.map_cons, intercalate_cons_eq, List.flatMap_map]
    rfl
  constructor
  · intro h
    cases ts with
    | nil =>
      cases h
      simp
    | cons t rest =>
      rw [items] at h
      split at h
      · cases h
      · next hmark =>
        obtain ⟨more, rfl, hmore, rfl⟩ := flatMap_of_itemsAfter h
        exact ⟨(hcons t more).symm, List.forall_mem_cons.mpr ⟨by simpa using hmark, hmore⟩⟩
  · rintro ⟨rfl, his⟩
    cases is with
    | nil => rfl
    | cons t more =>
      obtain ⟨ht, hmore⟩ := List.forall_mem_cons.mp his
      have hafter := itemsAfter_flatMap hmore [t]
      rw [hcons, items, ht]
      exact hafter

theorem edges_intercalate {groups : List (List Text)} {es : List Incoming}
    (h : List.Forall₂ (IsEdge names) groups es) :
    edges names ([Text.ofString ","].intercalate groups) = .ok es := by
  induction h with
  | nil => rfl
  | @cons group e groups es hedge hrest ih =>
    obtain ⟨hpred, harg⟩ := hedge
    have htarget := target_eq_ok_iff.mpr hpred
    have hoperand := operand_eq_ok_iff.mpr harg
    cases hrest with
    | nil =>
      simp [edges, Text.dropSuffix?_append, htarget, hoperand, bind, Except.bind, pure, Except.pure]
    | @cons next e' groups es hnext hrest =>
      -- The reader wants more than the comma, and the next edge begins with a bracket.
      obtain ⟨t, more, hmore⟩ : ∃ t more, [Text.ofString ","].intercalate (next :: groups) =
          t :: more := by
        obtain ⟨-, -⟩ := hnext
        exact ⟨_, _, intercalate_cons_eq _ _ _⟩
      rw [hmore] at ih
      rw [List.intercalate_cons_cons, hmore]
      simp only [List.cons_append, List.nil_append, edges, Text.dropSuffix?_append, htarget,
        hoperand, ih]
      rfl

theorem intercalate_of_edges {es : List Incoming} (h : edges names ts = .ok es) :
    ∃ groups, List.Forall₂ (IsEdge names) groups es ∧
      ts = [Text.ofString ","].intercalate groups := by
  fun_induction edges names ts generalizing es with
  | case1 =>
    cases h
    exact ⟨[], .nil, rfl⟩
  | case2 => cases h
  | case3 left source token right rest label hlabel hbrackets ih =>
    obtain ⟨pred, hpred, h⟩ := bind_eq_ok.mp h
    obtain ⟨arg, harg, h⟩ := bind_eq_ok.mp h
    have hedge : IsEdge names [left, source, token, right] ⟨pred, arg⟩ := by
      obtain rfl := Text.eq_append_of_dropSuffix? hlabel
      obtain ⟨rfl, rfl⟩ : left = "[" ∧ right = "]" := by simpa using hbrackets
      exact .mk (target_eq_ok_iff.mp hpred) (operand_eq_ok_iff.mp harg)
    rcases rest with _ | ⟨comma, _ | ⟨t, more⟩⟩
    · cases h
      exact ⟨[_], .cons hedge .nil, rfl⟩
    · cases h
    · dsimp only at h
      split at h
      · next hcomma =>
        obtain ⟨es', hes, h⟩ := bind_eq_ok.mp h
        cases h
        obtain ⟨groups, hgroups, hmore⟩ := ih hes
        refine ⟨_, .cons hedge hgroups, ?_⟩
        cases groups with
        | nil => cases hmore
        | cons group groups =>
          rw [List.intercalate_cons_cons, ← hmore, hcomma]
          rfl
      · cases h
  | case4 => cases h
  | case5 => cases h

theorem completes_of_instr {op : Opcode} {body : Body} (hop : op ≠ .phi)
    (h : instr names op ts = .ok body) : Completes names op ts body := by
  unfold instr at h
  obtain ⟨is, his, hbody⟩ := bind_eq_ok.mp h
  obtain ⟨hts, -⟩ := items_eq_ok_iff.mp his
  split at hbody
  · cases hbody
  · next hcount =>
    obtain ⟨args, hargs, hbody⟩ := bind_eq_ok.mp hbody
    obtain ⟨targets, htargets, hbody⟩ := bind_eq_ok.mp hbody
    cases hbody
    have hlength : (is.drop (is.length - op.targetCount)).length = op.targetCount := by
      rw [List.length_drop]
      omega
    rw [mapM_eq_ok_iff] at hargs htargets
    rw [← List.take_append_drop (is.length - op.targetCount) is] at hts
    rw [hts]
    exact .instr hop (hargs.imp fun _ _ => operand_eq_ok_iff.mp)
      (htargets.imp fun _ _ => target_eq_ok_iff.mp) hlength

/-- The items of an instruction are no marks, so a mark ends none of them. -/
theorem items_of_completes (hu : names.Unmarked) {argTokens labels : List Text}
    {args : List Operand} {targets : List BlockId}
    (hargs : List.Forall₂ names.Denotes argTokens args)
    (htargets : List.Forall₂ (fun label id => names.block? label = some id) labels targets) :
    ∀ t ∈ argTokens ++ labels, isMark t = false := by
  intro t ht
  rcases List.mem_append.mp ht with ht | ht
  · obtain ⟨o, -, ho⟩ := exists_of_mem_left hargs ht
    exact hu.operand ho
  · obtain ⟨id, -, hid⟩ := exists_of_mem_left htargets ht
    exact hu.target hid

theorem instr_of_completes (hu : names.Unmarked) {op : Opcode} {body : Body} (hop : op ≠ .phi)
    (h : Completes names op ts body) : instr names op ts = .ok body := by
  cases h with
  | phi => exact absurd rfl hop
  | @instr _ argTokens labels args targets _ hargs htargets hcount =>
    have hitems := items_eq_ok_iff.mpr ⟨rfl, items_of_completes hu hargs htargets⟩
    have hoperands := mapM_eq_ok_iff.mpr (hargs.imp fun _ _ => operand_eq_ok_iff.mpr)
    have hlabels := mapM_eq_ok_iff.mpr (htargets.imp fun _ _ => target_eq_ok_iff.mpr)
    have hlength : (argTokens ++ labels).length = argTokens.length + op.targetCount := by
      rw [List.length_append, hcount]
    rw [instr, hitems]
    simp only [bind, Except.bind, hlength, Nat.add_sub_cancel, List.take_left, List.drop_left,
      hoperands, hlabels]
    rw [if_neg (by omega)]
    rfl

theorem Completes.op_ne_phi {op : Opcode} {body : Body} (h : Completes names op ts body) :
    ∀ op targets args, body = .instr op targets args → op ≠ .phi := by
  cases h with
  | phi => simp
  | instr hop =>
    rintro _ _ _ ⟨⟩
    exact hop

theorem eq_of_result {name : Option Text} {rest : List Text} (h : result ts = (name, rest)) :
    ts = (name.elim [] fun name => [name, Text.ofString "="]) ++ rest := by
  unfold result at h
  split at h
  · split at h
    · next heq =>
      cases h
      rw [heq]
      rfl
    · cases h
      rfl
  · cases h
    rfl

theorem result_of_head {t : Text} (h : ts.head? ≠ some (Text.ofString "=")) :
    result (t :: ts) = (none, t :: ts) := by
  cases ts with
  | nil => rfl
  | cons eq rest => exact if_neg fun heq => h (congrArg some heq)

/-- What stands behind an opcode is not taken for the equals sign behind a name. -/
theorem Completes.head_ne (hu : names.Unmarked) {op : Opcode} {body : Body}
    (h : Completes names op ts body) : ts.head? ≠ some (Text.ofString "=") := by
  cases h with
  | phi h =>
    cases h with
    | nil => simp
    | cons hedge hrest =>
      obtain ⟨-, -⟩ := hedge
      rw [intercalate_cons_eq]
      exact fun heq => absurd (Option.some.inj heq) (by decide)
  | @instr _ argTokens labels _ _ _ hargs htargets _ =>
    have hmarks := items_of_completes hu hargs htargets
    cases his : argTokens ++ labels with
    | nil => simp
    | cons t more =>
      rw [List.map_cons, intercalate_cons_eq]
      intro heq
      obtain rfl : t = "=" := Option.some.inj heq
      have hmark := hmarks _ (his ▸ List.mem_cons_self)
      exact absurd hmark (by decide)

theorem filter_written {name : Text} (hname : name ≠ []) :
    (some name).filter (· ≠ []) = some name :=
  Option.filter_some_pos (decide_eq_true hname)

theorem statement_of_result (hu : names.Unmarked) {written : Option Text} {op : Opcode}
    {rest : List Text} {body : Body} (hresult : result ts = (written, op.text :: rest))
    (hop : op.isValid = true)
    (hout : (written.filter (· ≠ [])).isSome = true → op.hasOutput = true)
    (h : Completes names op rest body) :
    statement names ts = .ok ⟨written.filter (· ≠ []), body⟩ := by
  have hname : ((written.filter (· ≠ [])).isSome && !op.hasOutput) = false := by
    cases hs : (written.filter (· ≠ [])).isSome with
    | false => rfl
    | true => simp [hout hs]
  simp only [statement, hresult, Opcode.ofName?_text hop, hname, Bool.false_eq_true, if_false]
  by_cases hphi : op = .phi
  · subst hphi
    cases h with
    | phi h =>
      rw [if_pos rfl, edges_intercalate h]
      rfl
    | instr hne => exact absurd rfl hne
  · rw [if_neg hphi, instr_of_completes hu hphi h]
    rfl

theorem result_of_statement {s : Statement} (h : statement names ts = .ok s) :
    ∃ written op rest, result ts = (written, op.text :: rest) ∧
      s.name = written.filter (· ≠ []) ∧ op.isValid = true ∧
      (s.name.isSome = true → op.hasOutput = true) ∧ Completes names op rest s.body := by
  unfold statement at h
  split at h
  · cases h
  · next written token rest hresult =>
    split at h
    · cases h
    · next op hop =>
      obtain ⟨hvalid, rfl⟩ := Opcode.ofName?_eq_some_iff.mp hop
      dsimp only at h
      split at h
      · cases h
      · next hnamed =>
        have hout : (written.filter (· ≠ [])).isSome = true → op.hasOutput = true := by
          intro hname
          rw [hname] at hnamed
          simpa using hnamed
        split at h
        · next hphi =>
          subst hphi
          obtain ⟨es, hes, rfl⟩ := map_eq_ok.mp h
          obtain ⟨groups, hgroups, rfl⟩ := intercalate_of_edges hes
          exact ⟨_, _, _, hresult, rfl, hvalid, hout, .phi hgroups⟩
        · next hphi =>
          obtain ⟨body, hbody, rfl⟩ := map_eq_ok.mp h
          exact ⟨_, _, _, hresult, rfl, hvalid, hout, completes_of_instr hphi hbody⟩

theorem grammatical_of_statement {s : Statement} (h : statement names ts = .ok s) :
    Grammatical names ts s := by
  obtain ⟨written, op, rest, hresult, hname, hop, hout, hbody⟩ := result_of_statement h
  obtain ⟨name, body⟩ := s
  rw [eq_of_result hresult]
  cases written with
  | none =>
    cases hname
    exact .unnamed hop hbody
  | some written =>
    by_cases hnil : written = []
    · subst hnil
      cases hname
      exact .blank hop hbody
    · obtain rfl : name = some written := hname.trans (filter_written hnil)
      exact .named hnil hop (hout rfl) hbody

theorem statement_of_grammatical (hu : names.Unmarked) {s : Statement}
    (h : Grammatical names ts s) : statement names ts = .ok s := by
  have hresult : ∀ (name : Text) rest,
      result (name :: Text.ofString "=" :: rest) = (some name, rest) := by
    intro name rest
    simp [result]
  cases h with
  | @named name op rest body hname hop hout h =>
    have hread := statement_of_result hu (hresult name (op.text :: rest)) hop (fun _ => hout) h
    rwa [filter_written hname] at hread
  | unnamed hop h =>
    exact statement_of_result hu (result_of_head (h.head_ne hu)) hop (by simp) h
  | blank hop h => exact statement_of_result hu (hresult _ _) hop (by simp) h

theorem statement_eq_ok_iff (hu : names.Unmarked) {s : Statement} :
    statement names ts = .ok s ↔ Grammatical names ts s :=
  ⟨grammatical_of_statement, statement_of_grammatical hu⟩

end Line

end TypeFlow
