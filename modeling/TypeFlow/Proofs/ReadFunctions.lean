import TypeFlow.Proofs.ListingLines
import TypeFlow.Proofs.Statements

/-! Whatever was read has names and literals with which it can be listed again. -/

namespace TypeFlow

/-- Numbers make names. -/
theorem Token.isName_v (n : Nat) : isName ("v" ++ Text.ofNat n) = true := by
  have hbyte : ∀ c, (Number.digit? c).any (· < 10) = true → isNamePart c = true := by
    apply Number.forall_byte
    decide +kernel
  have hdigits : (Text.ofNat n).all isNamePart = true := by
    refine List.all_eq_true.mpr fun c hc => hbyte c ?_
    obtain ⟨d, hlt, hd⟩ := Number.allDigits_ofNat n c hc
    simp [hd, hlt]
  have hcons : ∀ t : Text, t.all isNamePart = true → isName ("v" ++ t) = true := by
    intro t ht
    have htrue : Text.ofString "true" = Text.ascii 't' :: Text.ofString "rue" := by decide
    have hfalse : Text.ofString "false" = Text.ascii 'f' :: Text.ofString "alse" := by decide
    have hstart : isNameStart (Text.ascii 'v') = true := by decide
    have ht' : Text.ascii 'v' ≠ Text.ascii 't' := by decide
    have hf' : Text.ascii 'v' ≠ Text.ascii 'f' := by decide
    change isName (Text.ascii 'v' :: t) = true
    simp [isName, hstart, ht, htrue, hfalse, ht', hf']
  exact hcons _ hdigits

/-- The operand is no literal, or one that some text stands for. -/
def Operand.Readable (o : Operand) : Prop := ∀ lit, o = .literal lit → ∃ t, Literal.read t = .ok lit

/-- The value is named and refers to literals as in a text. -/
structure Value.Written (v : Value) : Prop where
  name : v.name = [] ∨ Token.isName v.name = true ∧ v.name ≠ "func"
  operands : ∀ o ∈ v.operands, o.Readable

namespace Line

theorem readable_operand {names : Names} {t : Text} {o : Operand}
    (h : operand names t = .ok o) : o.Readable := by
  rintro lit rfl
  cases operand_eq_ok_iff.mp h with
  | literal _ hread => exact ⟨t, hread⟩

theorem Says.readable {names : Names} {ts : List Text} {s : Statement} (h : Says names ts s)
    (id : ValueId) (block : BlockId) : ∀ o ∈ (s.toValue id block).operands, o.Readable := by
  intro o ho
  obtain ⟨t, -, ht⟩ := exists_of_mem_left (h.operands id block).flip ho
  exact readable_operand ht

theorem name_toValue (s : Statement) (id : ValueId) (block : BlockId) :
    (s.toValue id block).name = s.name.getD [] := by
  unfold Statement.toValue
  split <;> rfl

theorem head?_of_result {ts : List Text} {name : Text} (h : (result ts).1 = some name) :
    ts.head? = some name := by
  unfold result at h
  split at h
  · split at h
    · exact h
    · cases h
  · cases h

/-- A name that a line defines is among the names. -/
theorem Names.mem_keys_addAll {names : Names} {hs : List Head} {name : Text}
    (h : .value (some name) ∈ hs) : name ∈ (names.addAll 0 hs).values.map (·.1) := by
  have hm : some name ∈ hs.filterMap Head.value? := List.mem_filterMap.mpr ⟨_, h, rfl⟩
  obtain ⟨i, hi⟩ := List.mem_iff_getElem?.mp hm
  have hvalues := values_addAll names 0 hs
  have hkey : (name, (i : ValueId)) ∈ (names.addAll 0 hs).values := by
    refine hvalues ▸ List.mem_append_left _ (List.mem_reverse.mpr (List.mem_filterMap.mpr ?_))
    exact ⟨(some name, i), List.mk_mem_zipIdx_iff_getElem?.mpr hi, rfl⟩
  exact List.mem_map_of_mem hkey

end Line

namespace Source

open Line

/-- What reading lines keeps, whatever has been read. -/
structure ReadSoFar (name : Text) (labels : List Text) (b : Builder) : Prop where
  name_eq : b.func.name = name
  labels_eq : b.func.blocks.map (·.name) = labels
  written : ∀ v ∈ b.func.values, v.Written

theorem readSoFar_startOf (name : Text) (labels : List Text) :
    ReadSoFar name labels (startOf name labels) := by
  refine ⟨rfl, ?_, fun v hv => absurd hv List.not_mem_nil⟩
  simp [startOf, labelled, Function.comp_def]

theorem ReadSoFar.push {name : Text} {labels : List Text} {b : Builder} {v : Value}
    (h : ReadSoFar name labels b) (hv : v.Written) (current : BlockId) :
    ReadSoFar name labels ⟨b.func.push v, current⟩ := by
  have hpush : ∀ blk : Block, (blk.push v).name = blk.name := by
    intro blk
    unfold Block.push
    split <;> rfl
  refine ⟨h.name_eq, ?_, ?_⟩
  · rw [← h.labels_eq]
    exact map_modify_of_eq hpush _ _
  · intro w hw
    rcases List.mem_append.mp hw with hw | hw
    · exact h.written w hw
    · exact List.mem_singleton.mp hw ▸ hv

theorem ReadSoFar.addLine {file name : Text} {names : Names} {lines : List Numbered}
    (hnames : names = Names.addAll {} 0 (lines.map fun l => head l.tokens)) (hg : names.Good)
    (hbody : IsBody lines) {l : Numbered} (hl : l ∈ lines) {b b' : Builder}
    (h : ReadSoFar name names.labels b) (hb : Source.addLine file names b l = .ok b') :
    ReadSoFar name names.labels b' := by
  rw [addLine_eq] at hb
  split at hb
  · cases hb
    exact ⟨h.name_eq, h.labels_eq, h.written⟩
  · next hlabel =>
    split at hb
    · cases hb
    · next s hs =>
      have hsays := says_of_statement hs
      obtain ⟨-, -, -, rfl⟩ := addStatement_eq_ok_iff.mp (built_eq_ok.mp hb)
      refine h.push ⟨?_, hsays.readable _ _⟩ _
      rw [name_toValue, hsays.getD_name]
      cases hresult : (result l.tokens).1 with
      | none => exact Or.inl rfl
      | some defined =>
        have hhead : .value (some defined) ∈ lines.map fun l => head l.tokens := by
          refine List.mem_map.mpr ⟨l, hl, ?_⟩
          rw [head, hlabel, hresult]
        have hkey : defined ∈ names.values.map (·.1) := by
          rw [hnames]
          exact Names.mem_keys_addAll hhead
        obtain ⟨p, hp, rfl⟩ := List.mem_map.mp hkey
        refine Or.inr ⟨hg.value_name p hp, fun hfunc => hbody l hl ?_⟩
        rw [head?_of_result hresult]
        exact congrArg some hfunc

theorem ReadSoFar.presentable {name : Text} {names : Names} {b : Builder} {fn : Func}
    (h : ReadSoFar name names.labels b) (hg : names.Good) (htidy : b.Tidy)
    (hf : b.finish = .ok fn) (htoken : Token.split name = [name])
    (hplain : Text.ascii '#' ∉ name ∧ Text.ascii '\n' ∉ name) : fn.Presentable := by
  have hlink := Builder.finish_linkable htidy hf
  obtain ⟨rfl, -⟩ := Builder.finish_eq_ok hf
  have hnames : b.func.linked.blocks.map (·.name) = names.labels := by
    rw [hlink.linked_eq, List.map_map, ← h.labels_eq]
    rfl
  have hname : ∀ blk ∈ b.func.linked.blocks, Token.isName blk.name = true := by
    intro blk hblk
    exact hg.label_name _ (hnames ▸ List.mem_map_of_mem hblk)
  have hlabel : ∀ blk ∈ b.func.linked.blocks, blk.label = blk.name := by
    intro blk hblk
    have hne : blk.name ≠ [] := (Token.word_of_isName (hname blk hblk)).ne_nil
    rw [Block.label, if_neg (by simpa using hne)]
  have hvalue : ∀ v ∈ b.func.linked.values, v.Written ∧ ∃ n : Nat, v.id = n := by
    intro v hv
    rw [hlink.linked_eq] at hv
    obtain ⟨v₀, hv₀, rfl⟩ := List.mem_map.mp hv
    obtain ⟨n, hn⟩ := exists_lookup_of_mem hv₀
    have hwritten := h.written v₀ hv₀
    have hid := hlink.value_id hn
    exact ⟨⟨hwritten.name, hwritten.operands⟩, n, hid⟩
  refine ⟨h.name_eq ▸ htoken, h.name_eq ▸ hplain, fun blk hblk => ?_, ?_, fun v hv _ => ?_,
    fun v hv lit hlit => (hvalue v hv).1.operands _ hlit lit rfl⟩
  · rw [hlabel blk hblk]
    exact hname blk hblk
  · rw [List.map_congr_left hlabel, hnames]
    exact hg.labels_nodup
  · obtain ⟨hwritten, n, hn⟩ := hvalue v hv
    rcases hwritten.name with hnil | hname
    · rw [Value.label, hnil, hn]
      refine ⟨Token.isName_v n, fun he => ?_⟩
      have hfirst : some (Text.ascii 'v') = some (Text.ascii 'f') := congrArg List.head? he
      exact absurd hfirst (by decide)
    · have hne : v.name ≠ [] := (Token.word_of_isName hname.1).ne_nil
      rw [Value.label, if_neg (by simpa using hne)]
      exact hname

theorem Draft.presentable {file : Text} {d : Draft} {fn : Func} (h : d.toFunc file = .ok fn)
    (hbody : IsBody d.lines) (htoken : Token.split d.name = [d.name])
    (hplain : Text.ascii '#' ∉ d.name ∧ Text.ascii '\n' ∉ d.name) : fn.Presentable := by
  obtain ⟨names, b, hdefine, -, hb, hf⟩ := toFunc_eq_ok_iff.mp h
  obtain ⟨hnames, hg, -⟩ := (defineAll_eq_ok_iff Names.good_nil).mp hdefine
  have hrev : IsBody d.lines.reverse := fun l hl => hbody l (List.mem_reverse.mp hl)
  have hread : ReadSoFar d.name names.labels b :=
    foldlM_preserves (P := ReadSoFar d.name names.labels)
      (fun _ _ hl _ hb hs => hb.addLine hnames hg hrev hl hs) (readSoFar_startOf _ _) hb
  exact hread.presentable hg (leads_addLines hb).tidy hf htoken hplain

/-- The header of a function is a line of the source without its comment. -/
theorem header_plain {src : Text} {ds : List Draft}
    (h : numbered (rawLines src) = ds.flatMap Draft.source) {d : Draft} (hd : d ∈ ds) :
    Token.split d.name = [d.name] ∧ Text.ascii '#' ∉ d.name ∧ Text.ascii '\n' ∉ d.name := by
  have hmem : d.header ∈ numbered (rawLines src) := by
    rw [h]
    exact List.mem_flatMap.mpr ⟨d, hd, List.mem_cons_self⟩
  obtain ⟨⟨line, number⟩, hline, hheader⟩ := List.mem_filterMap.mp hmem
  have hraw : line ∈ rawLines src := List.fst_mem_of_mem_zipIdx hline
  have hname : d.name ∈ Token.split (Text.before (Text.ascii '#') (dropReturn line)) := by
    dsimp only at hheader
    split at hheader
    · cases hheader
    · obtain ⟨-, htokens⟩ := Numbered.mk.inj (Option.some.inj hheader)
      rw [htokens]
      simp
  have hsub := Token.subset_of_mem_split hname
  refine ⟨(Token.isToken_of_mem_split hname).lexes.split_eq, fun hm => ?_, fun hm => ?_⟩
  · exact Text.sep_not_mem_before _ _ (hsub hm)
  · exact newline_not_mem_rawLines hraw (dropReturn_subset line (Text.before_subset _ _ (hsub hm)))

theorem parse_presentable {file src : Text} {fns : List Func} (h : parse file src = .ok fns) :
    ∀ fn ∈ fns, fn.Presentable := by
  obtain ⟨ds, hlines, hds, hnew⟩ := exists_drafts_of_parse h
  intro fn hfn
  obtain ⟨d, hd, hfn⟩ := exists_of_mem_left hnew.flip hfn
  obtain ⟨htoken, hplain⟩ := header_plain hlines hd
  exact Draft.presentable hfn (hds d hd) htoken hplain

end Source

end TypeFlow
