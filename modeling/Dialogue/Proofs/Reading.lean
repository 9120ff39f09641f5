import Dialogue.Proofs.Operands
import Dialogue.Script.Reader

/-!
# Numbers that are read

A numeral that is out of range is no number, so every number in a script that
has been read from text is finite (`Script.finite_of_parse`).
-/

namespace Dialogue

-- ---------------------------------------------------------------------------
-- What a reader yields
-- ---------------------------------------------------------------------------

namespace Json.Reader

variable {α β σ : Type}

def Yields (x : Reader α) (property : α → Prop) : Prop :=
  ∀ text a rest, x.run text = .ok (a, rest) → property a

theorem yields_pure {property : α → Prop} (h : property a) :
    (pure a : Reader α).Yields property := by
  rintro text _ rest ⟨⟩
  exact h

theorem yields_fail {property : α → Prop} (fault : Fault) : (fail fault).Yields property := nofun

theorem Yields.bind {x : Reader α} {f : α → Reader β} {middle : α → Prop} {property : β → Prop}
    (hx : x.Yields middle) (hf : ∀ a, middle a → (f a).Yields property) :
    (x >>= f).Yields property := by
  intro text b rest h
  rw [run_bind] at h
  split at h
  · rename_i a later ha
    exact hf a (hx text a later ha) later b rest h
  · cases h

theorem yields_bind (x : Reader α) {f : α → Reader β} {property : β → Prop}
    (hf : ∀ a, (f a).Yields property) : (x >>= f).Yields property := by
  have hx : x.Yields fun _ => True := fun _ _ _ _ => trivial
  exact hx.bind fun a _ => hf a

theorem Yields.imp {x : Reader α} {property other : α → Prop} (hx : x.Yields property)
    (h : ∀ a, property a → other a) : x.Yields other :=
  fun text a rest hrun => h a (hx text a rest hrun)

theorem Yields.map {x : Reader α} {f : α → β} {property : β → Prop}
    (hx : x.Yields fun a => property (f a)) : (f <$> x).Yields property :=
  hx.bind fun _ h => yields_pure h

theorem yields_misshapen {property : α → Prop} : (misshapen : Reader α).Yields property := by
  refine yields_bind peek fun c => ?_
  split
  · exact yields_fail _
  · exact yields_fail _
  · exact yields_bind _ fun _ => yields_fail _

theorem Yields.parse {x : Reader α} {property : α → Prop} (hx : x.Yields property)
    (h : x.parse text = .ok a) : property a := by
  unfold Reader.parse at h
  split at h
  · cases h
  · rename_i found rest hrun
    split at h
    · cases h
      exact hx _ _ _ hrun
    · cases h

section

variable {item : Reader α} {property : α → Prop} (hitem : item.Yields property)
include hitem

theorem Yields.moreItems : (moreItems item).Yields fun found => ∀ a ∈ found, property a := by
  intro text found rest h
  change moreItemsOf item text = .ok (found, rest) at h
  fun_induction moreItemsOf item text generalizing found rest with
  | case1 => cases h
  | case2 =>
    cases h
    exact fun _ hmem => absurd hmem List.not_mem_nil
  | case3 => cases h
  | case4 text rest' hcomma a rest'' ha ih =>
    cases hmore : moreItemsOf item rest'' with
    | error fault => simp [hmore, Except.map] at h
    | ok more =>
      simp only [hmore, Except.map, Except.ok.injEq, Prod.mk.injEq] at h
      obtain ⟨rfl, _⟩ := h
      exact List.forall_mem_cons.mpr ⟨hitem _ _ _ ha, ih _ _ hmore⟩

theorem Yields.items : (items item).Yields fun found => ∀ a ∈ found, property a := by
  refine yields_bind peek fun c => ?_
  split
  · refine yields_bind advance fun _ => yields_pure ?_
    exact fun _ hmem => absurd hmem List.not_mem_nil
  · refine hitem.bind fun first hfirst => hitem.moreItems.bind fun more hmore => ?_
    exact yields_bind advance fun _ => yields_pure (List.forall_mem_cons.mpr ⟨hfirst, hmore⟩)

theorem Yields.nextItem? : (nextItem? item).Yields fun found => ∀ a ∈ found, property a := by
  refine yields_bind (comma ']') fun more => ?_
  split
  · refine Yields.map fun text a rest h => ?_
    simpa using hitem text a rest h
  · exact yields_pure nofun

end

/-- What every member keeps holds of the whole object. -/
theorem yields_members {member : σ → String → Reader σ} {property : σ → Prop} {state : σ}
    (purpose : Purpose) (hstate : property state)
    (hmember : ∀ state key, property state → (member state key).Yields property) :
    (members purpose member state).Yields property := by
  have hstep {state : σ} (h : property state) :
      (key purpose >>= member state).Yields property :=
    yields_bind (key purpose) fun name => hmember state name h
  refine yields_bind peek fun c => ?_
  split
  · exact yields_bind advance fun _ => yields_pure hstate
  · refine (hstep hstate).bind fun first hfirst => ?_
    have hmore : (moreMembers purpose member first).Yields property := by
      intro text final rest h
      change moreMembersOf purpose member first text = .ok (final, rest) at h
      fun_induction moreMembersOf purpose member first text with
      | case1 => cases h
      | case2 =>
        cases h
        exact hfirst
      | case3 => cases h
      | case4 state text rest' hcomma gathered rest'' hkey ih =>
        exact ih (hstep hfirst _ _ _ hkey) h
    exact hmore.bind fun final hfinal => yields_bind advance fun _ => yields_pure hfinal

theorem Yields.memberList {value : Reader α} {property : α → Prop} (purpose : Purpose)
    (hvalue : value.Yields property) :
    (memberList purpose value).Yields fun found => ∀ entry ∈ found, property entry.2 := by
  refine yields_members purpose (fun _ hmem => absurd hmem List.not_mem_nil) ?_
  intro found key hfound
  refine yields_bind colon fun _ => hvalue.bind fun a ha => yields_pure ?_
  exact List.forall_mem_append.mpr ⟨hfound, by simpa using ha⟩

end Json.Reader

-- ---------------------------------------------------------------------------
-- Finite operands
-- ---------------------------------------------------------------------------

def Operand.Finite : Operand → Prop
  | .number value => value.isFinite = true
  | _ => True

namespace Operands

def Finite (operands : List (String × Operand)) : Prop :=
  ∀ operand ∈ operands, operand.2.Finite

theorem finite_append {first rest : List (String × Operand)} :
    Finite (first ++ rest) ↔ Finite first ∧ Finite rest :=
  List.forall_mem_append

theorem finite_singleton (name : String) {value : Operand} (h : value.Finite) :
    Finite [(name, value)] := by
  rintro _ hmem
  cases List.mem_singleton.mp hmem
  exact h

theorem finite_statements {source : List Statement}
    (h : ∀ first ∈ source, Finite (statement first)) : Finite (statements source) := by
  induction source with
  | nil => exact nofun
  | cons first rest ih =>
    obtain ⟨hfirst, hrest⟩ := List.forall_mem_cons.mp h
    exact finite_append.mpr ⟨hfirst, ih hrest⟩

theorem finite_choices {source : List Choice}
    (h : ∀ choice ∈ source, Finite (statements choice.body)) : Finite (choices source) := by
  induction source with
  | nil => exact nofun
  | cons choice rest ih =>
    obtain ⟨label, body⟩ := choice
    obtain ⟨hbody, hrest⟩ := List.forall_mem_cons.mp h
    exact finite_append.mpr ⟨hbody, ih hrest⟩

theorem finite_clauses {source : List Clause}
    (h : ∀ clause ∈ source, Finite (condition clause.condition ++ statements clause.body)) :
    Finite (clauses source) := by
  induction source with
  | nil => exact nofun
  | cons clause rest ih =>
    obtain ⟨guard, body⟩ := clause
    obtain ⟨hclause, hrest⟩ := List.forall_mem_cons.mp h
    exact finite_append.mpr ⟨hclause, ih hrest⟩

end Operands

theorem exists_of_mapM {f : α → Option β} {items : List α} {found : List β}
    (h : items.mapM f = some found) (hmem : b ∈ found) : ∃ a ∈ items, f a = some b := by
  induction items generalizing found with
  | nil =>
    cases h
    cases hmem
  | cons item rest ih =>
    simp only [List.mapM_cons, Option.bind_eq_bind, Option.bind_eq_some_iff] at h
    obtain ⟨first, hfirst, more, hmore, hfound⟩ := h
    cases hfound
    rcases List.mem_cons.mp hmem with rfl | hrest
    · exact ⟨item, List.mem_cons_self, hfirst⟩
    · obtain ⟨a, ha, hb⟩ := ih hmore hrest
      exact ⟨a, List.mem_cons_of_mem _ ha, hb⟩

-- ---------------------------------------------------------------------------
-- Decoding
-- ---------------------------------------------------------------------------

namespace Operand

theorem finite_of_content {kind : OperandKind} {content : Json}
    (h : ofContent? kind content = some operand) : operand.Finite := by
  unfold ofContent? at h
  split at h
  case h_2 numeral =>
    simp only [Json.Numeral.number?, Option.map_map, Option.map_eq_some_iff] at h
    obtain ⟨magnitude, _, rfl⟩ := h
    rfl
  all_goals
    cases h
    try trivial

theorem finite_of_json {json : Json} (h : ofJson? json = some operand) : operand.Finite := by
  simp only [ofJson?, Option.bind_eq_bind, Option.bind_eq_some_iff] at h
  obtain ⟨fields, _, h⟩ := h
  split at h
  · obtain ⟨kind, _, hcontent⟩ := Option.bind_eq_some_iff.mp h
    exact finite_of_content hcontent
  · obtain ⟨kind, _, hcontent⟩ := Option.bind_eq_some_iff.mp h
    exact finite_of_content hcontent
  · obtain ⟨kind, _, hnull⟩ := Option.bind_eq_some_iff.mp h
    split at hnull
    · cases hnull
      trivial
    · cases hnull
  · cases h

end Operand

theorem Comparison.finite_of_field {field : Option Json} {guard : Option Comparison}
    (h : ofField? field = some guard) : Operands.Finite (Operands.condition guard) := by
  unfold ofField? at h
  split at h
  · cases h
    exact nofun
  · cases h
    exact nofun
  · obtain ⟨comparison, hcomparison, rfl⟩ := Option.map_eq_some_iff.mp h
    simp only [ofJson?, Option.bind_eq_bind, Option.bind_eq_some_iff] at hcomparison
    obtain ⟨fields, _, hfields⟩ := hcomparison
    split at hfields
    · obtain ⟨value, hvalue, hcomparison⟩ := Option.bind_eq_some_iff.mp hfields
      cases hcomparison
      exact Operands.finite_singleton _ (Operand.finite_of_json hvalue)
    · cases hfields

namespace Statement

section

variable {read : Json → Option Statement}
  (hread : ∀ json source, read json = some source → Operands.Finite (Operands.statement source))
include hread

theorem finite_of_body {field : Option Json} (h : bodyWith? read field = some body) :
    Operands.Finite (Operands.statements body) := by
  unfold bodyWith? at h
  split at h
  · cases h
    exact nofun
  · refine Operands.finite_statements fun source hsource => ?_
    obtain ⟨json, _, hjson⟩ := exists_of_mapM h hsource
    exact hread json source hjson
  · cases h

theorem finite_of_choice (h : choiceWith? read json = some choice) :
    Operands.Finite (Operands.statements choice.body) := by
  simp only [choiceWith?, Option.bind_eq_bind, Option.bind_eq_some_iff] at h
  obtain ⟨fields, _, h⟩ := h
  split at h
  · obtain ⟨body, hbody, hchoice⟩ := Option.bind_eq_some_iff.mp h
    cases hchoice
    exact finite_of_body hread hbody
  · cases h

theorem finite_of_clause (h : clauseWith? read json = some clause) :
    Operands.Finite
      (Operands.condition clause.condition ++ Operands.statements clause.body) := by
  simp only [clauseWith?, Option.bind_eq_bind, Option.bind_eq_some_iff] at h
  obtain ⟨fields, _, h⟩ := h
  split at h
  · obtain ⟨guard, hguard, h⟩ := Option.bind_eq_some_iff.mp h
    obtain ⟨body, hbody, hclause⟩ := Option.bind_eq_some_iff.mp h
    cases hclause
    exact Operands.finite_append.mpr
      ⟨Comparison.finite_of_field hguard, finite_of_body hread hbody⟩
  · cases h

theorem finite_of_tagged (h : taggedWith? read tag fields = some source) :
    Operands.Finite (Operands.statement source) := by
  unfold taggedWith? at h
  split at h <;> obtain ⟨found, _, h⟩ := Option.bind_eq_some_iff.mp h
  case h_4 =>
    split at h
    · obtain ⟨options, hoptions, hsource⟩ := Option.bind_eq_some_iff.mp h
      cases hsource
      refine Operands.finite_choices fun choice hchoice => ?_
      obtain ⟨json, _, hjson⟩ := exists_of_mapM hoptions hchoice
      exact finite_of_choice hread hjson
    · cases h
  case h_5 =>
    split at h
    · obtain ⟨branches, hbranches, hsource⟩ := Option.bind_eq_some_iff.mp h
      cases hsource
      refine Operands.finite_clauses fun clause hclause => ?_
      obtain ⟨json, _, hjson⟩ := exists_of_mapM hbranches hclause
      exact finite_of_clause hread hjson
    · cases h
  case h_6 =>
    split at h
    · obtain ⟨value, hvalue, hsource⟩ := Option.bind_eq_some_iff.mp h
      cases hsource
      exact Operands.finite_singleton _ (Operand.finite_of_json hvalue)
    · cases h
  case h_7 =>
    cases h
    exact nofun
  -- What is said, where to go and what is asked of the player have no operands.
  all_goals
    split at h
    · cases h
      exact nofun
    · cases h

end

theorem finite_within {depth : Nat} {json : Json} (h : nestedWithin? depth json = some source) :
    Operands.Finite (Operands.statement source) := by
  induction depth generalizing json source with
  | zero => cases h
  | succ depth ih =>
    obtain ⟨⟨tag, fields⟩, _, htagged⟩ := Option.bind_eq_some_iff.mp h
    exact finite_of_tagged (fun _ _ => ih) htagged

end Statement

-- ---------------------------------------------------------------------------
-- Reading
-- ---------------------------------------------------------------------------

namespace Script.Reader

open Json.Reader

variable {α : Type} {property : α → Prop}

theorem yields_shape {decoded : Option α} (h : ∀ a, decoded = some a → property a) :
    (shape decoded).Yields property := by
  unfold shape
  split
  · exact yields_pure (h _ rfl)
  · exact yields_fail _

theorem yields_once {given : Option α} {content : Json.Reader α}
    (hcontent : content.Yields property) :
    (once given content).Yields fun found => ∀ a ∈ found, property a := by
  have hsome : (some <$> content).Yields fun found => ∀ a ∈ found, property a := by
    refine Yields.map fun text a rest h => ?_
    simpa using hcontent text a rest h
  unfold once
  split
  · exact yields_bind _ fun _ => yields_bind colon fun _ => hsome
  · exact yields_bind colon fun _ => hsome

theorem yields_named {depth : Nat} {field : String} {content : Nat → Json.Reader α}
    (hcontent : ∀ depth, (content depth).Yields property) :
    (named depth field content).Yields fun found => ∀ a ∈ found.2, property a := by
  refine yields_bind peek fun c => ?_
  split
  · refine yields_bind (enter depth) fun depth => yields_members .keep nofun ?_
    rintro ⟨name, rest⟩ key hrest
    simp only
    split
    · exact yields_bind _ fun _ => yields_pure hrest
    · split
      · exact (yields_once (hcontent depth)).bind fun _ h => yields_pure h
      · exact yields_bind colon fun _ => yields_bind skip fun _ => yields_pure hrest
  · refine yields_bind (enter depth) fun depth => yields_bind _ fun name => ?_
    have hclose {rest : Option α} (h : ∀ a ∈ rest, property a) :
        (do closeItems; pure (name, rest) : Json.Reader _).Yields
          fun found => ∀ a ∈ found.2, property a :=
      yields_bind closeItems fun _ => yields_pure h
    split
    · exact (hcontent depth).nextItem?.bind fun _ h => hclose h
    · exact hclose nofun
  · exact yields_misshapen

theorem yields_statements (depth : Nat) :
    (statements depth).Yields fun body => Operands.Finite (Operands.statements body) := by
  have hstatement (depth : Nat) :
      (statement depth).Yields fun source => Operands.Finite (Operands.statement source) := by
    refine yields_bind (tagged depth) fun found => yields_shape fun source h => ?_
    exact Statement.finite_of_tagged (fun _ _ => Statement.finite_within) h
  refine yields_bind peek fun c => ?_
  split
  · refine yields_bind (enter depth) fun depth => ?_
    exact (hstatement depth).items.imp fun _ => Operands.finite_statements
  · exact yields_misshapen

theorem yields_node (depth : Nat) :
    (node depth).Yields fun source => Operands.Finite (Operands.node source) := by
  refine (yields_named yields_statements).bind ?_
  rintro ⟨name, body⟩ hbody
  refine yields_pure ?_
  cases body with
  | none => exact nofun
  | some body => exact hbody body rfl

theorem yields_nodes (depth : Nat) :
    (nodes depth).Yields fun table =>
      ∀ entry ∈ table.entries, Operands.Finite (Operands.node entry.2) := by
  refine yields_bind peek fun c => ?_
  split
  · refine yields_bind (enter depth) fun depth => ?_
    refine Yields.map ((yields_node depth).memberList .keep |>.imp fun members h => ?_)
    intro entry hentry
    obtain ⟨member, hmember, rfl⟩ := List.mem_map.mp (Table.mem_ofList hentry)
    exact h member hmember
  · exact yields_misshapen

end Script.Reader

/-- Every number of a script that is read from text is finite. -/
theorem Script.finite_of_parse (h : parse text = .ok script) : Operands.Finite script.operands := by
  have hscript : Script.Reader.script.Yields fun script => Operands.Finite script.operands := by
    refine (Reader.yields_named Reader.yields_nodes).bind ?_
    rintro ⟨name, nodes⟩ hnodes
    refine (Reader.yields_shape hnodes).bind fun table htable => Json.Reader.yields_pure ?_
    intro operand hoperand
    obtain ⟨source, hsource, hmem⟩ := List.mem_flatMap.mp hoperand
    obtain ⟨entry, hentry, rfl⟩ := List.mem_map.mp hsource
    exact htable entry hentry operand hmem
  exact hscript.parse h

end Dialogue
