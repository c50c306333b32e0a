import ShaderModule.Proofs.Record.Exact
import ShaderModule.Proofs.Record.Reload

/-!
# What emission does: `emit_hl_metadata`

Writing the side-tables builds the nodes of one group after another and enters them under the reserved
names. It is refused if a global or a function that some group refers to is gone, and then nothing has
been done. Otherwise the groups refer in the end to just the entities that were looked at before, and all
that is not a reserved entry is as it was.
-/

namespace ShaderModule

/-- What a list without repetitions is related to, member by member, is a function of the members. -/
theorem exists_map_eq_of_forall₂ {α β : Type} [DecidableEq α] {R : α → β → Prop} (f₀ : α → β) {xs : List α}
    {ys : List β} (hn : xs.Nodup) (h : List.Forall₂ R xs ys) :
    ∃ f : α → β, ys = xs.map f ∧ ∀ x ∈ xs, R x (f x) := by
  induction h with
  | nil => exact ⟨f₀, rfl, nofun⟩
  | @cons x y xs ys hxy _ ih =>
    obtain ⟨hx, hxs⟩ := List.nodup_cons.1 hn
    obtain ⟨f, rfl, hf⟩ := ih hxs
    have hother : ∀ a ∈ xs, Function.update f x y a = f a := fun a ha =>
      Function.update_of_ne (fun heq : a = x => hx (heq ▸ ha)) y f
    refine ⟨Function.update f x y, ?_, ?_⟩
    · rw [List.map_cons, Function.update_self, List.map_congr_left hother]
    · intro a ha
      rcases List.mem_cons.1 ha with rfl | ha
      · rwa [Function.update_self]
      · rw [hother a ha]
        exact hf a ha

namespace Tables

variable {t : Tables} {p q : Program}

/-! ## The nodes of a group -/

/-- Builds the records of one group. -/
def buildGroup (t : Tables) : Group → Build (List (Handle .node))
  | .version => List.singleton <$> Version.layout.write .current
  | .profile => t.profile.toList.mapM Profile.layout.write
  | .entryPoints => List.singleton <$> EntryPoint.layout.write t.entryPoint
  | .resources => List.singleton <$> Registry.layout.write t.resources.renumber
  | .annotations => t.types.write
  | .functionProps => t.props.entries.mapM fun e => StageProps.write e.1 e.2
  | .options => List.singleton <$> Options.layout.write t.options
  | .resourceTypes => t.resourceTypes.write
  | .rootSignature =>
    if t.rootSignature.isEmpty then pure []
    else List.singleton <$> rootSignatureLayout.write t.rootSignature
  | .used => t.used.mapM fun g => Build.value (.global g)

/-- The groups are built in their order. -/
theorem build_eq (t : Tables) : t.build = Group.all.mapM fun g => Prod.mk g <$> t.buildGroup g := by
  simp only [build, Group.all, List.mapM_cons, List.mapM_nil, buildGroup, map_eq_pure_bind, bind_assoc,
    pure_bind, List.singleton]
  by_cases h : t.rootSignature.isEmpty
  · simp only [h, if_true, pure_bind]
  · simp only [h, Bool.false_eq_true, if_false, bind_assoc, pure_bind]

end Tables

/-- The nodes of a group are built the same way again. There are some just if `present` holds, and they lead
to the entities that `refs` holds for. -/
structure Build.ExactGroup (b : Build (List (Handle .node))) (present : Prop) (refs : Entity → Prop) :
    Prop where
  stable  : b.Stable
  present : ∀ p, (b p).1 ≠ [] ↔ present
  leads   : ∀ p q, (b p).2.Extends q → ∀ e, (∃ n ∈ (b p).1, q.Leads (some n) e) ↔ refs e

namespace Build.ExactGroup

variable {b : Build (List (Handle .node))} {present present' : Prop} {refs refs' : Entity → Prop}

theorem congr (h : b.ExactGroup present refs) (hpresent : present ↔ present') (hrefs : ∀ e, refs e ↔ refs' e) :
    b.ExactGroup present' refs' :=
  ⟨h.stable, fun p => (h.present p).trans hpresent, fun p q hq e => (h.leads p q hq e).trans (hrefs e)⟩

/-- A group without records. -/
theorem nil : (pure [] : Build (List (Handle .node))).ExactGroup False fun _ => False where
  stable := .pure []
  present _ := iff_of_false (fun h => h rfl) id
  leads _ _ _ _ := iff_of_false (fun ⟨_, hn, _⟩ => List.not_mem_nil hn) id

/-- A group with one record. -/
theorem record {ρ : Type} {l : Layout ρ} {refs : ρ → List Entity} (hl : l.Exact refs) (x : ρ) :
    (List.singleton <$> l.write x).ExactGroup True (· ∈ refs x) where
  stable := (hl.stable x).map _
  present p := iff_of_true (List.cons_ne_nil _ _) trivial
  leads p q hq e := by
    rw [← hl.leads x p q hq e]
    exact ⟨fun ⟨n, hn, h⟩ => List.mem_singleton.1 hn ▸ h, fun h => ⟨_, List.mem_singleton_self _, h⟩⟩

/-- A group with any number of records. -/
theorem records {α : Type} {write : α → Build (Handle .node)} {refs : α → List Entity}
    (hs : ∀ x, Build.Stable (write x))
    (hl : ∀ x p q, (write x p).2.Extends q → ∀ e, q.Leads (some (write x p).1) e ↔ e ∈ refs x) (xs : List α) :
    (xs.mapM write).ExactGroup (xs ≠ []) fun e => ∃ x ∈ xs, e ∈ refs x where
  stable := .mapM fun x _ => hs x
  present p := by
    have hlen := (Build.made_mapM (fun x (_ : x ∈ xs) => (hs x).growing) p).length_eq
    rw [← List.length_pos_iff, ← List.length_pos_iff, hlen]
  leads p q hq e := Cell.leads_mapM hs hl xs p q hq e

end Build.ExactGroup

open Build (ExactGroup)

theorem TypeSystem.exact_write (t : TypeSystem) :
    t.write.ExactGroup True fun e => ∃ f ∈ t.functions.keys, Entity.function f = e where
  stable := .bind (.mapM fun e _ => StructInfo.exact_layout.stable e) fun _ =>
    .bind (.mapM fun e _ => FunctionInfo.exact_layout.stable e) fun _ =>
      .bind (Build.stable_node _) fun _ => .bind (Build.stable_node _) fun _ => .pure _
  present p := iff_of_true (List.cons_ne_nil _ _) trivial
  leads p q hq e := by
    let structs := t.structs.entries.mapM StructInfo.layout.write p
    let functions := t.functions.entries.mapM FunctionInfo.layout.write structs.2
    let first := Build.tuple (structs.1.map some) functions.2
    let second := Build.tuple (functions.1.map some) first.2
    have h₃ : second.2.Extends q := hq
    have h₂ : first.2.Extends q := (Build.growing_node _ _).toExtends.trans h₃
    have h₁ : functions.2.Extends q := (Build.growing_node _ _).toExtends.trans h₂
    have h₀ : structs.2.Extends q :=
      (Build.Growing.mapM (fun e _ => FunctionInfo.lawful_layout.growing e) _).toExtends.trans h₁
    have hstructs := Cell.leads_mapM StructInfo.exact_layout.stable StructInfo.exact_layout.leads
      t.structs.entries p q h₀ e
    have hfunctions := Cell.leads_mapM FunctionInfo.exact_layout.stable FunctionInfo.exact_layout.leads
      t.functions.entries structs.2 q h₁ e
    have hfirst : q.Leads (some first.1) e ↔ _ := (Cell.leads_tuple structs.1 functions.2 q h₂ e).trans hstructs
    have hsecond : q.Leads (some second.1) e ↔ _ := (Cell.leads_tuple functions.1 first.2 q h₃ e).trans hfunctions
    show (∃ n ∈ [first.1, second.1], q.Leads (some n) e) ↔ _
    simp only [List.mem_cons, List.not_mem_nil, or_false, exists_eq_or_imp, exists_eq_left, hfirst, hsecond]
    simp [Ordered.keys, eq_comm]

theorem ResourceTypes.exact_write (t : ResourceTypes) :
    (ResourceTypes.write t).ExactGroup (Ordered.entries t ≠ []) fun _ => False where
  stable := .bind (.mapM fun e _ => ResourceTypes.exact_layout.stable e) fun _ =>
    .bind (Cell.stable_listOperand _) fun _ => .pure _
  present p := by
    have hlen := (Build.made_mapM (fun e (_ : e ∈ t.entries) => ResourceTypes.lawful_layout.growing e) p).length_eq
    show ((Cell.listOperand (t.entries.mapM layout.write p).1) _).1.toList ≠ [] ↔ _
    rw [← List.length_pos_iff (l := t.entries), hlen]
    cases (t.entries.mapM layout.write p).1 with
    | nil => simp [Cell.listOperand, Build.pure_apply]
    | cons n ns => exact iff_of_true (List.cons_ne_nil _ _) (Nat.zero_lt_succ _)
  leads p q hq e := by
    let entries := t.entries.mapM ResourceTypes.layout.write p
    have hq : (Cell.listOperand entries.1 entries.2).2.Extends q := hq
    have hgrow := (Cell.growing_listOperand entries.1 entries.2).toExtends.trans hq
    have hentries := Cell.leads_mapM ResourceTypes.exact_layout.stable ResourceTypes.exact_layout.leads
      t.entries p q hgrow e
    have hlist := (Cell.leads_listOperand entries.1 entries.2 q hq e).trans hentries
    show (∃ n ∈ (Cell.listOperand entries.1 entries.2).1.toList, q.Leads (some n) e) ↔ _
    refine iff_of_false ?_ id
    rintro ⟨n, hn, hl⟩
    rw [← Option.mem_toList.1 hn, hlist] at hl
    simp at hl

namespace Tables

variable {t : Tables} {p q : Program}

/-! ## What groups refer to -/

/-- The tables refer to an entity in the records of a group. -/
inductive Persists (t : Tables) : Group → Entity → Prop where
  | entry {f} (h : t.entry = some f) : Persists t .entryPoints (.function f)
  | resource {π : Type} {k : Listing π} {x : Bound π} (h : x ∈ t.resources.list k) :
    Persists t .resources (.global x.global)
  | shader {f x} (h : (f, x) ∈ t.props.entries) : Persists t .functionProps (.function f)
  | patchConstant {f x c} (h : (f, .hull x) ∈ t.props.entries) (hc : x.patchConstant = some c) :
    Persists t .functionProps (.function c)
  | clipPlane {f x g} (h : (f, .vertex x) ∈ t.props.entries) (hg : some g ∈ x.clipPlanes) :
    Persists t .functionProps (.global g)
  | annotated {f a} (h : (f, a) ∈ t.types.functions.entries) : Persists t .annotations (.function f)
  | used {g} (h : g ∈ t.used) : Persists t .used (.global g)

/-- A group has an entry: five groups always, the others if their table is not empty. -/
def Fills (t : Tables) : Group → Prop
  | .version | .entryPoints | .resources | .annotations | .options => True
  | .profile => t.profile ≠ none
  | .functionProps => t.props.entries ≠ []
  | .resourceTypes => Ordered.entries t.resourceTypes ≠ []
  | .rootSignature => t.rootSignature ≠ []
  | .used => t.used ≠ []

theorem globals_renumber (r : Registry) : r.renumber.globals = r.globals := by
  simp only [Registry.globals, Registry.renumber, Bound.map_global_renumber]

theorem mem_resources {g : Handle .global} {r : Registry} :
    g ∈ r.globals ↔ ∃ (π : Type) (k : Listing π) (x : Bound π), x ∈ r.list k ∧ x.global = g := by
  simp only [Registry.globals, List.mem_append, List.mem_map]
  constructor
  · rintro (((⟨x, hx, rfl⟩ | ⟨x, hx, rfl⟩) | ⟨x, hx, rfl⟩) | ⟨x, hx, rfl⟩)
    · exact ⟨_, .cbuffers, x, hx, rfl⟩
    · exact ⟨_, .samplers, x, hx, rfl⟩
    · exact ⟨_, .srvs, x, hx, rfl⟩
    · exact ⟨_, .uavs, x, hx, rfl⟩
  · rintro ⟨π, k, x, hx, rfl⟩
    cases k with
    | cbuffers => exact .inl (.inl (.inl ⟨x, hx, rfl⟩))
    | samplers => exact .inl (.inl (.inr ⟨x, hx, rfl⟩))
    | srvs => exact .inl (.inr ⟨x, hx, rfl⟩)
    | uavs => exact .inr ⟨x, hx, rfl⟩

/-- The check for dangling references looks at what the groups refer to. -/
theorem mem_references {g : Group} {e : Entity} : (g, e) ∈ t.references ↔ t.Persists g e := by
  simp only [references, List.mem_append, List.mem_map, List.mem_flatMap, Prod.mk.injEq, or_assoc]
  constructor
  · rintro (⟨f, hf, rfl, rfl⟩ | ⟨h, hh, rfl, rfl⟩ | ⟨⟨f, x⟩, hx, ⟨c, hc, rfl, rfl⟩ | ⟨h, hh, rfl, rfl⟩⟩ |
      ⟨f, hf, rfl, rfl⟩ | ⟨h, hh, rfl, rfl⟩)
    · exact .entry (Option.mem_toList.1 hf)
    · obtain ⟨π, k, x, hx, rfl⟩ := mem_resources.1 hh
      exact .resource hx
    · rcases List.mem_cons.1 hc with rfl | hc
      · exact .shader hx
      · cases x with
        | hull props => exact .patchConstant hx (Option.mem_toList.1 hc)
        | _ => cases hc
    · cases x with
      | vertex props => exact .clipPlane hx (by simpa [StageProps.globals] using hh)
      | _ => cases hh
    · obtain ⟨⟨f, a⟩, ha, rfl⟩ := List.mem_map.1 hf
      exact .annotated ha
    · exact .used hh
  · rintro (hf | hx | hx | ⟨hx, hc⟩ | ⟨hx, hg⟩ | ha | hg)
    · exact .inl ⟨_, Option.mem_toList.2 hf, rfl, rfl⟩
    · exact .inr (.inl ⟨_, mem_resources.2 ⟨_, _, _, hx, rfl⟩, rfl, rfl⟩)
    · exact .inr (.inr (.inl ⟨_, hx, .inl ⟨_, List.mem_cons_self, rfl, rfl⟩⟩))
    · exact .inr (.inr (.inl ⟨_, hx, .inl ⟨_, List.mem_cons_of_mem _ (Option.mem_toList.2 hc), rfl, rfl⟩⟩))
    · exact .inr (.inr (.inl ⟨_, hx, .inr ⟨_, by simpa [StageProps.globals] using hg, rfl, rfl⟩⟩))
    · exact .inr (.inr (.inr (.inl ⟨_, List.mem_map.2 ⟨_, ha, rfl⟩, rfl, rfl⟩)))
    · exact .inr (.inr (.inr (.inr ⟨_, hg, rfl, rfl⟩)))

/-- Every group is written the same way again. It has an entry as it should, and leads to what is looked at
before. -/
theorem exact_buildGroup (t : Tables) (g : Group) : (t.buildGroup g).ExactGroup (t.Fills g) (t.Persists g) := by
  suffices h : (t.buildGroup g).ExactGroup (t.Fills g) fun e => (g, e) ∈ t.references from
    h.congr .rfl fun e => mem_references
  cases g with
  | version => exact (ExactGroup.record Version.exact_layout .current).congr .rfl (by simp [references])
  | profile =>
    exact (ExactGroup.records Profile.exact_layout.stable Profile.exact_layout.leads t.profile.toList).congr
      (by simp [Fills]) (by simp [references])
  | entryPoints =>
    exact (ExactGroup.record EntryPoint.exact_layout t.entryPoint).congr .rfl
      (by simp [references, EntryPoint.refs, entryPoint])
  | resources =>
    exact (ExactGroup.record Registry.exact_layout t.resources.renumber).congr .rfl
      (by simp [references, Registry.refs, globals_renumber])
  | annotations =>
    exact t.types.exact_write.congr .rfl (by simp [references])
  | functionProps =>
    have h := ExactGroup.records (fun x => (StageProps.exact_write x.1 x.2).1)
      (fun x => (StageProps.exact_write x.1 x.2).2) t.props.entries
    exact h.congr .rfl (by simp [references, StageProps.refs, eq_comm])
  | options => exact (ExactGroup.record Options.exact_layout t.options).congr .rfl (by simp [references])
  | resourceTypes => exact t.resourceTypes.exact_write.congr .rfl (by simp [references])
  | rootSignature =>
    by_cases h : t.rootSignature = []
    · have hnil : t.buildGroup .rootSignature = pure [] := by simp [buildGroup, h]
      rw [hnil]
      exact .congr .nil (by simp [Fills, h]) (by simp [references])
    · have hcons : t.buildGroup .rootSignature = List.singleton <$> rootSignatureLayout.write t.rootSignature := by
        simp [buildGroup, h]
      rw [hcons]
      exact .congr (.record exact_rootSignatureLayout t.rootSignature) (by simp [Fills, h]) (by simp [references])
  | used =>
    have hleads : ∀ g p q, (Build.value (.global g) p).2.Extends q →
        ∀ e, q.Leads (some (Build.value (.global g) p).1) e ↔ e ∈ [Entity.global g] := by
      intro g p q hq e
      refine (Program.leads_value (hq.node? (Build.node?_node (.value (.global g)) p))).trans ?_
      simp [Value.entity?, eq_comm]
    have h := ExactGroup.records (fun g => Build.stable_node (.value (.global g))) hleads t.used
    exact h.congr .rfl (by simp [references, eq_comm])

/-- All groups are written the same way again. -/
theorem stable_build (t : Tables) : Build.Stable t.build := by
  rw [build_eq]
  exact .mapM fun g _ => .map _ (t.exact_buildGroup g).stable

/-- The nodes of every group are those that it was written to in the meantime. -/
theorem nodes_build (t : Tables) (p : Program) :
    ∃ nodes : Group → List (Handle .node), (t.build p).1 = Group.all.map (fun g => (g, nodes g)) ∧
      ∀ g, ∃ r, (t.buildGroup g r).2.Extends (t.build p).2 ∧ nodes g = (t.buildGroup g r).1 := by
  have hgrow : ∀ g, Build.Growing (Prod.mk g <$> t.buildGroup g) := fun g =>
    .map _ (t.exact_buildGroup g).stable.growing
  have hmade := Build.made_mapM (fun g (_ : g ∈ Group.all) => hgrow g) p
  rw [← build_eq] at hmade
  obtain ⟨f, hf, hall⟩ := exists_map_eq_of_forall₂ (fun g => (g, [])) (by decide) hmade
  have hbuilt : ∀ g, ∃ r, (t.buildGroup g r).2.Extends (t.build p).2 ∧ f g = (g, (t.buildGroup g r).1) := by
    intro g
    obtain ⟨r, -, hr, hfg⟩ := hall g (Group.mem_all g)
    exact ⟨r, hr.toExtends, hfg⟩
  refine ⟨fun g => (f g).2, ?_, fun g => ?_⟩
  · rw [hf]
    refine List.map_congr_left fun g _ => ?_
    obtain ⟨r, -, hfg⟩ := hbuilt g
    simp only [hfg]
  · obtain ⟨r, hr, hfg⟩ := hbuilt g
    exact ⟨r, hr, congrArg Prod.snd hfg⟩

/-! ## What writing does -/

/-- Tables that can be written are built, and the groups are entered one after another. -/
theorem emit_eq_ok : t.emit p = .ok () q ↔
    t.dangling? p = none ∧ (t.build p).1.foldl setGroup (t.build p).2 = q := by
  unfold emit
  generalize t.build p = built
  cases t.dangling? p with
  | none =>
    refine ⟨fun h => ⟨rfl, (EStateM.Result.ok.inj h).2⟩, ?_⟩
    rintro ⟨-, rfl⟩
    rfl
  | some r => exact iff_of_false nofun nofun

/-- The entry of every group holds the nodes that it was written to. -/
structure Entered (t : Tables) (p q : Program) (nodes : Group → List (Handle .node)) : Prop where
  build : (t.build p).1 = Group.all.map fun g => (g, nodes g)
  built : ∀ g, ∃ r, (t.buildGroup g r).2.Extends q ∧ nodes g = (t.buildGroup g r).1
  named : ∀ g : Group, q.named? g.name = if (nodes g).isEmpty then none else some (nodes g)
  grows : (t.build p).2.Extends q
  rest  : ∃ named, q = { (t.build p).2 with named }

/-- Entering groups changes the named entries only. -/
theorem extends_foldl_setGroup (gs : List (Group × List (Handle .node))) (p : Program) :
    p.Extends (gs.foldl setGroup p) := by
  obtain ⟨named, hrest⟩ := foldl_setGroup_rest gs p
  rw [hrest]
  exact ⟨List.prefix_refl _, List.prefix_refl _, List.prefix_refl _⟩

theorem entered_of_emit (h : t.emit p = .ok () q) : ∃ nodes, t.Entered p q nodes := by
  obtain ⟨-, hq⟩ := emit_eq_ok.1 h
  obtain ⟨nodes, hnodes, hbuilt⟩ := t.nodes_build p
  have hext := extends_foldl_setGroup (t.build p).1 (t.build p).2
  have hrest := foldl_setGroup_rest (t.build p).1 (t.build p).2
  rw [hq] at hext hrest
  refine ⟨nodes, hnodes, fun g => ?_, fun g => ?_, hext, hrest⟩
  · obtain ⟨r, hr, hg⟩ := hbuilt g
    exact ⟨r, hr.trans hext, hg⟩
  · rw [← hq, hnodes]
    exact named?_foldl_setGroup nodes g Group.all _ (.inl (Group.mem_all g))

/-! ## What is left alone -/

/-- `q` is `p` with the tables written into it. The tables of contents grew at their ends. All else but the
named entries is the same, and so are those that are not reserved. A group has an entry just if it should,
and the entry leads to what the tables refer to in that group. -/
structure Written (t : Tables) (p q : Program) : Prop where
  grows    : p.Extends q
  rest     : q = { p with types := q.types, constants := q.constants, nodes := q.nodes, named := q.named }
  others   : ∀ name, (∀ g : Group, g.name ≠ name) → q.named? name = p.named? name
  present  : ∀ g : Group, (q.named? g.name).isSome ↔ t.Fills g
  leads    : ∀ (g : Group) (e : Entity),
    (∃ ops, q.named? g.name = some ops ∧ ∃ n ∈ ops, q.Leads (some n) e) ↔ t.Persists g e

theorem named?_setGroup_of_ne (p : Program) {g : Group × List (Handle .node)} {name : String}
    (hname : g.1.name ≠ name) : (setGroup p g).named? name = p.named? name := by
  unfold setGroup
  split
  · simp only [Program.removeNamed, Program.named?, Ordered.find?_erase, hname.symm, if_false]
  · simp only [Program.setNamed, Program.named?, Ordered.find?_insert, hname.symm, if_false]

theorem named?_foldl_setGroup_of_ne {name : String} (hname : ∀ g : Group, g.name ≠ name)
    (gs : List (Group × List (Handle .node))) (p : Program) :
    (gs.foldl setGroup p).named? name = p.named? name := by
  induction gs generalizing p with
  | nil => rfl
  | cons g gs ih => rw [List.foldl_cons, ih, named?_setGroup_of_ne p (hname g.1)]

theorem written_of_emit (h : t.emit p = .ok () q) : t.Written p q := by
  obtain ⟨nodes, he⟩ := entered_of_emit h
  have hgrow := t.stable_build.growing p
  constructor
  case grows => exact hgrow.toExtends.trans he.grows
  case rest =>
    obtain ⟨named, hrest⟩ := he.rest
    rw [hrest, hgrow.rest]
  case others =>
    intro name hname
    have hnamed := named?_foldl_setGroup_of_ne hname (t.build p).1 (t.build p).2
    rw [(emit_eq_ok.1 h).2] at hnamed
    rw [hnamed, Program.named?, hgrow.named]
    rfl
  case present =>
    intro g
    obtain ⟨r, -, hg⟩ := he.built g
    rw [he.named, ← (t.exact_buildGroup g).present r, ← hg]
    cases nodes g <;> simp
  case leads =>
    intro g e
    obtain ⟨r, hr, hg⟩ := he.built g
    rw [he.named, ← (t.exact_buildGroup g).leads r q hr e, ← hg]
    cases nodes g <;> simp

/-- Tables are written into a program just if it has all that they persist. Otherwise nothing is written,
and the answer is an entity that the program lacks and a group that refers to it. -/
theorem emit_written_or_dangling (t : Tables) (p : Program) :
    ((∃ q, t.emit p = .ok () q) ↔ ∀ g e, t.Persists g e → p.has e) ∧
      ((∃ q, t.emit p = .ok () q ∧ t.Written p q) ∨
        ∃ g e, t.emit p = .error (.dangling g e) p ∧ t.Persists g e ∧ ¬ p.has e) := by
  cases hd : t.dangling? p with
  | none =>
    obtain ⟨q, hq⟩ := exists_emit hd
    refine ⟨iff_of_true ⟨q, hq⟩ ?_, .inl ⟨q, hq, written_of_emit hq⟩⟩
    intro g e he
    exact dangling?_eq_none.1 hd e (List.mem_map.2 ⟨(g, e), mem_references.2 he, rfl⟩)
  | some r =>
    obtain ⟨g, e⟩ := r
    have hemit : t.emit p = .error (.dangling g e) p := by
      unfold emit
      rw [hd]
    have hpersists : t.Persists g e := mem_references.1 (List.mem_of_find?_eq_some hd)
    have hgone : ¬ p.has e := by simpa using List.find?_some hd
    refine ⟨iff_of_false ?_ fun hall => hgone (hall g e hpersists), .inr ⟨g, e, hemit, hpersists, hgone⟩⟩
    rintro ⟨q, hq⟩
    cases hemit.symm.trans hq

end Tables

end ShaderModule
