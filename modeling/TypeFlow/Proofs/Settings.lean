import TypeFlow.Proofs.DistinctKeys
import TypeFlow.Proofs.Layering

/-! Which settings of a text take effect. A name is decoded without regard to case, but a setting is
defined only under its exact name. So a setting whose every name is spelled exactly has the value it
is given, and one that is spelled otherwise wherever it is given has no effect. -/

namespace TypeFlow.Config

open Toml (Document Fields)

/-- Settings that are no lists, which the innermost definition replaces. -/
def Setting.isScalar : Setting → Bool
  | enabled | disabled => false
  | _ => true

/-- The value of a setting as a text gives it. -/
def get (c : Config) : Setting → Toml.Value
  | .target => .text c.target
  | .enabled => .list (c.enabled.map .text)
  | .disabled => .list (c.disabled.map .text)
  | .branchSuccessors => .flag c.branchSuccessors
  | .checkMonotonic => .flag c.checkMonotonic
  | .debug => .flag c.debug

/-- The document gives the setting a value under this name in this table. -/
def Gives (doc : Document) (s : Setting) (table name : Text) (v : Toml.Value) : Prop :=
  setting? table name = some s ∧ ∃ fields, (table, .table fields) ∈ doc.fields ∧ (name, v) ∈ fields

theorem text_of_text? {v : Toml.Value} {t : Text} (h : text? v = some t) : v = .text t := by
  cases v with
  | text t' => rw [Option.some.inj h]
  | _ => cases h

theorem flag_of_flag? {v : Toml.Value} {b : Bool} (h : flag? v = some b) : v = .flag b := by
  cases v with
  | flag b' => rw [Option.some.inj h]
  | _ => cases h

theorem list_of_texts? {v : Toml.Value} {ts : List Text} (h : texts? v = some ts) :
    v = .list (ts.map .text) := by
  cases v with
  | list vs =>
    congr 1
    induction vs generalizing ts with
    | nil =>
      cases h
      rfl
    | cons v vs ih =>
      change (v :: vs).mapM text? = some ts at h
      rw [List.mapM_cons] at h
      obtain ⟨t, ht, h⟩ := Option.bind_eq_some_iff.mp h
      obtain ⟨ts', hts, h⟩ := Option.bind_eq_some_iff.mp h
      cases h
      rw [List.map_cons, ← ih hts, text_of_text? ht]
  | _ => cases h

theorem get_store {c c' : Config} {s : Setting} {v : Toml.Value} (h : c.store? s v = some c') :
    c'.get s = v := by
  cases s with
  | target =>
    obtain ⟨t, ht, rfl⟩ := Option.map_eq_some_iff.mp h
    exact (text_of_text? ht).symm
  | enabled | disabled =>
    obtain ⟨ts, hts, rfl⟩ := Option.map_eq_some_iff.mp h
    exact (list_of_texts? hts).symm
  | branchSuccessors | checkMonotonic | debug =>
    obtain ⟨b, hb, rfl⟩ := Option.map_eq_some_iff.mp h
    exact (flag_of_flag? hb).symm

theorem get_store_of_ne {c c' : Config} {s s' : Setting} {v : Toml.Value}
    (h : c.store? s v = some c') (hne : s' ≠ s) : c'.get s' = c.get s' := by
  cases s
  all_goals
    obtain ⟨_, -, rfl⟩ := Option.map_eq_some_iff.mp h
    cases s' <;> simp_all [get]

/-- A step leaves the setting alone unless it gives it a value, and then one of the values it gives
is there. -/
def Stores {α : Type} (s : Setting) (step : Config → α → Option Config)
    (gives : α → Toml.Value → Prop) : Prop :=
  ∀ c a c', step c a = some c' →
    (c'.get s = c.get s ∧ ∀ v, ¬ gives a v) ∨ gives a (c'.get s)

theorem Stores.foldlM {α : Type} {s : Setting} {step : Config → α → Option Config}
    {gives : α → Toml.Value → Prop} (h : Stores s step gives) :
    Stores s (fun c (l : List α) => l.foldlM step c) fun l v => ∃ a ∈ l, gives a v := by
  intro c l c' hl
  induction l generalizing c with
  | nil =>
    cases hl
    exact .inl ⟨rfl, by simp⟩
  | cons a l ih =>
    simp only [List.foldlM_cons] at hl
    obtain ⟨c₁, ha, hl⟩ := Option.bind_eq_some_iff.mp hl
    rcases ih c₁ hl with ⟨hsame, hnone⟩ | ⟨b, hb, hgives⟩
    · rw [hsame]
      rcases h c a c₁ ha with ⟨hfirst, hnot⟩ | hfirst
      · refine .inl ⟨hfirst, fun v => ?_⟩
        rintro ⟨b, hb, hv⟩
        rcases List.mem_cons.mp hb with rfl | hb
        · exact hnot v hv
        · exact hnone v ⟨b, hb, hv⟩
      · exact .inr ⟨a, List.mem_cons_self, hfirst⟩
    · exact .inr ⟨b, List.mem_cons_of_mem a hb, hgives⟩

theorem stores_field (s : Setting) (table : Text) :
    Stores s (decodeField? table) fun field v => setting? table field.1 = some s ∧ field.2 = v := by
  intro c field c' h
  unfold decodeField? at h
  split at h
  · next s' hs' =>
    by_cases hs : s = s'
    · subst hs
      exact .inr ⟨hs', (get_store h).symm⟩
    · refine .inl ⟨get_store_of_ne h hs, fun v hv => ?_⟩
      exact hs (Option.some.inj (hv.1.symm.trans hs'))
  · next hnone =>
    cases h
    refine .inl ⟨rfl, fun v hv => ?_⟩
    cases hnone.symm.trans hv.1

theorem isTable_of_setting? {table name : Text} {s : Setting} (h : setting? table name = some s) :
    isTable table = true := by
  have hs := List.find?_some h
  simp only [Bool.and_eq_true] at hs
  exact List.any_eq_true.mpr ⟨s, List.mem_of_find?_eq_some h, hs.1⟩

theorem stores_decode (s : Setting) :
    Stores s decode? fun field v => ∃ fields, field.2 = .table fields ∧
      ∃ inner ∈ fields, setting? field.1 inner.1 = some s ∧ inner.2 = v := by
  intro c field c' h
  unfold decode? at h
  split at h
  · next fields htable hfields =>
    rcases (stores_field s field.1).foldlM c fields c' h with ⟨hsame, hnone⟩ | hgives
    · refine .inl ⟨hsame, fun v => ?_⟩
      rintro ⟨fields', hfields', hv⟩
      cases hfields.symm.trans hfields'
      exact hnone v hv
    · exact .inr ⟨fields, hfields, hgives⟩
  · cases h
  · next htable =>
    cases h
    refine .inl ⟨rfl, fun v => ?_⟩
    rintro ⟨fields, -, inner, -, hs, -⟩
    cases htable.symm.trans (isTable_of_setting? hs)

theorem get_decoded {doc : Document} {c c' : Config} (h : doc.fields.foldlM decode? c = some c')
    (s : Setting) :
    (c'.get s = c.get s ∧ ∀ table name v, ¬ Gives doc s table name v) ∨
      ∃ table name, Gives doc s table name (c'.get s) := by
  rcases (stores_decode s).foldlM c doc.fields c' h with ⟨hsame, hnone⟩ | hgives
  · refine .inl ⟨hsame, fun table name v => ?_⟩
    rintro ⟨hs, fields, htable, hname⟩
    exact hnone v ⟨_, htable, fields, rfl, _, hname, hs, rfl⟩
  · obtain ⟨⟨table, _⟩, htable, fields, rfl, ⟨name, _⟩, hname, hs, rfl⟩ := hgives
    exact .inr ⟨table, name, hs, fields, htable, hname⟩

theorem setting?_exact (s : Setting) : setting? s.table s.name = some s := by
  cases s <;> decide

theorem defines_iff {doc : Document} (hdoc : Fields.Distinct doc.fields) (s : Setting) :
    Layer.defines doc s = true ↔ ∃ v, Gives doc s s.table s.name v := by
  unfold Layer.defines
  constructor
  · intro h
    split at h
    · next fields hfields =>
      obtain ⟨v, hv⟩ := Option.isSome_iff_exists.mp h
      exact ⟨v, setting?_exact s, fields, Fields.mem_of_lookup hfields, Fields.mem_of_lookup hv⟩
    · cases h
  · rintro ⟨v, -, fields, htable, hname⟩
    have hfields : Fields.Distinct fields := hdoc.of_mem htable fields rfl
    simp only [hdoc.lookup_eq htable, hfields.lookup_eq hname, Option.isSome_some]

theorem Gives.unique {doc : Document} (hdoc : Fields.Distinct doc.fields) {s : Setting}
    {table name : Text} {v v' : Toml.Value} (h : Gives doc s table name v)
    (h' : Gives doc s table name v') : v = v' := by
  obtain ⟨-, fields, htable, hname⟩ := h
  obtain ⟨-, fields', htable', hname'⟩ := h'
  cases hdoc.unique htable htable'
  exact Fields.Distinct.unique (hdoc.of_mem htable fields rfl) hname hname'

theorem Resolves.get_eq {layers : List Layer} {c : Config} (h : Resolves layers c) {s : Setting}
    (hs : s.isScalar = true) : c.get s = (inForce s layers).get s := by
  cases s with
  | target => exact congrArg Toml.Value.text h.target
  | branchSuccessors => exact congrArg Toml.Value.flag h.branchSuccessors
  | checkMonotonic => exact congrArg Toml.Value.flag h.checkMonotonic
  | debug => exact congrArg Toml.Value.flag h.debug
  | enabled | disabled => cases hs

theorem inForce_ofDocument {doc : Document} {layer : Layer}
    (h : Layer.ofDocument doc = .ok layer) (s : Setting) :
    doc.fields.foldlM decode? {} = some layer.values ∧
      inForce s [layer] = if Layer.defines doc s then layer.values else standard := by
  unfold Layer.ofDocument at h
  split at h
  · cases h
  · next values hvalues =>
    split at h
    · cases h
      have hmem : s ∈ Setting.all := by cases s <;> decide
      refine ⟨hvalues, ?_⟩
      unfold inForce
      by_cases hs : Layer.defines doc s = true <;> simp [hs, hmem]
    · cases h

theorem document_of_parse {t : Text} {c : Config} (h : parse t = .ok c) :
    ∃ doc layer, Document.read t = .ok doc ∧ Layer.ofDocument doc = .ok layer ∧
      Resolves [layer] c := by
  unfold parse Layer.read at h
  cases hdoc : Document.read t with
  | error f => simp [hdoc] at h
  | ok doc =>
    cases hlayer : Layer.ofDocument doc with
    | error flaw => simp [hdoc, hlayer] at h
    | ok layer =>
      obtain ⟨c', hc', hresolves⟩ := exists_mergeAll [layer]
      have hofLayers : ofLayers [layer] = .ok c' := hc'
      simp only [hdoc, hlayer, hofLayers, Except.mapError] at h
      cases h
      exact ⟨doc, layer, rfl, hlayer, hresolves⟩

/-- Of a setting that is no list, a text that is accepted makes one of the values it gives, if it
gives one under the exact name: the value, if it gives no other one under another spelling. If it
gives none under the exact name the setting is the standard one, whatever is given under other
spellings. -/
theorem parse_scalars {t : Text} {c : Config} (h : parse t = .ok c) :
    ∃ doc, Document.read t = .ok doc ∧ ∀ s, s.isScalar = true →
      ((∃ v, Gives doc s s.table s.name v) → ∃ table name, Gives doc s table name (c.get s)) ∧
      ((∀ table name v, Gives doc s table name v → table = s.table ∧ name = s.name) →
        ∀ table name v, Gives doc s table name v → c.get s = v) ∧
      ((∀ v, ¬ Gives doc s s.table s.name v) → c.get s = standard.get s) := by
  obtain ⟨doc, layer, hread, hlayer, hresolves⟩ := document_of_parse h
  have hdoc := Document.distinct_read hread
  refine ⟨doc, hread, fun s hs => ?_⟩
  obtain ⟨hvalues, hforce⟩ := inForce_ofDocument hlayer s
  -- The setting is what was decoded if the exact name is there, and else the standard one.
  have hget := hresolves.get_eq hs
  rw [hforce] at hget
  have hexact : (∃ v, Gives doc s s.table s.name v) →
      ∃ table name, Gives doc s table name (c.get s) := by
    intro hgiven
    rw [hget, if_pos ((defines_iff hdoc s).mpr hgiven)]
    obtain ⟨v, hv⟩ := hgiven
    rcases get_decoded hvalues s with ⟨-, hnone⟩ | hgives
    · exact absurd hv (hnone _ _ v)
    · exact hgives
  refine ⟨hexact, fun hspelled table name v hv => ?_, fun hnone => ?_⟩
  · obtain ⟨rfl, rfl⟩ := hspelled table name v hv
    obtain ⟨table', name', hv'⟩ := hexact ⟨v, hv⟩
    obtain ⟨rfl, rfl⟩ := hspelled table' name' _ hv'
    exact hv'.unique hdoc hv
  · rw [hget, if_neg]
    intro hdefined
    obtain ⟨v, hv⟩ := (defines_iff hdoc s).mp hdefined
    exact hnone v hv

/-- One setting under its exact name and one whose table and name are spelled otherwise. -/
def mixedCase : Text := "[backend]\ntarget = \"none\"\n[SCCP]\nDebug = true\n"

def mixedCaseFields : Fields :=
  [("SCCP", .table [("Debug", .flag true)]), ("backend", .table [("target", .text "none")])]

theorem parse_scalars_mixedCase :
    ∃ c doc, parse mixedCase = .ok c ∧ Document.read mixedCase = .ok doc ∧
      Gives doc .target "backend" "target" (.text "none") ∧ c.get .target = .text "none" ∧
      Gives doc .debug "SCCP" "Debug" (.flag true) ∧ c.get .debug = .flag false := by
  have hparse : parse mixedCase = .ok { standard with target := "none" } := by decide +kernel
  obtain ⟨doc, hdoc, hscalars⟩ := parse_scalars hparse
  have hfields : doc.fields = mixedCaseFields := by
    cases hdoc
    rfl
  have hcases : ∀ (table : Text) (fields : Fields), (table, .table fields) ∈ doc.fields →
      table = "SCCP" ∧ fields = ([("Debug", .flag true)] : Fields) ∨
        table = "backend" ∧ fields = ([("target", .text "none")] : Fields) := by
    intro table fields h
    simpa [hfields, mixedCaseFields] using h
  have htarget : Gives doc .target "backend" "target" (.text "none") := by
    refine ⟨by decide, [("target", .text "none")], ?_, List.mem_cons_self⟩
    simp [hfields, mixedCaseFields]
  have hdebug : Gives doc .debug "SCCP" "Debug" (.flag true) := by
    refine ⟨by decide, [("Debug", .flag true)], ?_, List.mem_cons_self⟩
    simp [hfields, mixedCaseFields]
  obtain ⟨-, hspelled, -⟩ := hscalars .target rfl
  obtain ⟨-, -, hignored⟩ := hscalars .debug rfl
  refine ⟨_, doc, hparse, hdoc, htarget, hspelled ?_ _ _ _ htarget, hdebug, hignored ?_⟩
  · rintro table name v ⟨hs, fields, htable, hname⟩
    rcases hcases table fields htable with ⟨rfl, rfl⟩ | ⟨rfl, rfl⟩
    · obtain ⟨rfl, rfl⟩ := Prod.mk.inj (List.mem_singleton.mp hname)
      cases hs
    · exact ⟨rfl, (Prod.mk.inj (List.mem_singleton.mp hname)).1⟩
  · rintro v ⟨hs, fields, htable, hname⟩
    rcases hcases _ fields htable with ⟨htable, -⟩ | ⟨htable, -⟩
    · revert htable
      decide
    · revert htable
      decide

/-- A target that is spelled with a capital letter is accepted, and then is not in force. -/
theorem capital_target_ignored :
    ∃ c doc, parse "[backend]\nTarget = \"none\"\n" = .ok c ∧
      Document.read "[backend]\nTarget = \"none\"\n" = .ok doc ∧
      Gives doc .target "backend" "Target" (.text "none") ∧ c.target ≠ "none" := by
  have hread : Document.read "[backend]\nTarget = \"none\"\n" =
      .ok ⟨[("backend", .table [("Target", .text "none")])],
        [["backend"], ["backend", "Target"]]⟩ := rfl
  refine ⟨standard, _, by decide +kernel, hread, ?_, by decide⟩
  exact ⟨by decide, [("Target", .text "none")], List.mem_cons_self, List.mem_cons_self⟩

end TypeFlow.Config
