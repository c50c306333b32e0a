import ShaderModule.Proofs.Record.Versions

/-!
# Loading follows the schema: `load_hl_metadata`

A program is loaded group by group once its version is read. Each group is read from the operands of
its entry, so all that is known of readers carries over: a program is refused for a fault in one of its
groups or for its version, records are accepted only if they are of the right length, and recast
metadata is loaded as far as its version knows it.
-/

namespace ShaderModule

/-! ## Entries -/

/-- A reader of the operands of an entry follows forms, one for each position. -/
structure FollowsEntry {α : Type} (read : Source → List (Handle .node) → Except Fault α)
    (form : Nat → Form) (asOf : UInt32 → α → α) : Prop where
  inBounds : ∀ s hs, InBounds (read s hs)
  sound    : ∀ s hs a, read s hs = .ok a → ∀ i h, hs[i]? = some h → (form i).Sound s (some h)
  carries  : ∀ {s s' fits hs ks a}, Recasting s s' fits → ks.length = hs.length →
    (∀ i h k, hs[i]? = some h → ks[i]? = some k →
      (form i).Recast s.program s'.program fits (some h) (some k)) →
    read s hs = .ok a → read s' ks = .ok (asOf s'.minor a)

namespace FollowsEntry

variable {α β : Type} {asOf : UInt32 → α → α}

theorem map {read : Source → List (Handle .node) → Except Fault α} {form : Nat → Form}
    (h : FollowsEntry read form asOf) {f : α → β} {asOf' : UInt32 → β → β}
    (hf : ∀ minor a, asOf' minor (f a) = f (asOf minor a)) :
    FollowsEntry (fun s hs => f <$> read s hs) form asOf' where
  inBounds s hs := (h.inBounds s hs).map f
  sound s hs b hb := by
    obtain ⟨a, ha, -⟩ := map_eq_ok.1 hb
    exact h.sound s hs a ha
  carries hr hlen hform hb := by
    obtain ⟨a, ha, rfl⟩ := map_eq_ok.1 hb
    exact map_eq_ok.2 ⟨_, h.carries hr hlen hform ha, (hf _ a).symm⟩

variable {read : Source → Handle .node → Except Fault α} {form : Form}

/-- An entry of a single operand. -/
theorem single (h : Follows some read form asOf) :
    FollowsEntry (fun s hs => match hs with
      | [n] => read s n
      | _ => .error (.notOneOperand hs.length)) (fun _ => form) asOf where
  inBounds s hs := by
    split
    · exact h.inBounds s _
    · simp
  sound s hs a ha i n hn := by
    match hs, ha with
    | [m], ha =>
      obtain rfl : m = n := by
        have := List.mem_of_getElem? hn
        simp_all
      exact h.sound s m a ha
  carries {s s' fits hs ks a} hr hlen hform ha := by
    match hs, ha with
    | [n], ha =>
      match ks, hlen with
      | [k], _ => exact h.carries hr (hform 0 n k rfl rfl) ha

/-- An entry of any number of operands, all read alike. -/
theorem mapM (h : Follows some read form asOf) :
    FollowsEntry (fun s hs => hs.mapM (read s)) (fun _ => form) fun minor => List.map (asOf minor) where
  inBounds s hs := .mapM fun n _ => h.inBounds s n
  sound s hs as has i n hn := by
    obtain ⟨a, -, ha⟩ := exists_forall₂ (mapM_eq_ok.1 has).flip (List.mem_of_getElem? hn)
    exact h.sound s n a ha
  carries {s s' fits hs ks as} hr hlen hform has := by
    have hread := mapM_eq_ok.1 has
    refine mapM_eq_ok.2 (List.forall₂_iff_get.2 ⟨?_, ?_⟩)
    · rw [hlen, List.length_map, hread.length_eq]
    · intro i hi hi'
      rw [List.length_map] at hi'
      have hi'' : i < hs.length := hlen ▸ hi
      have ha := getElem?_forall₂ hread (List.getElem?_eq_getElem hi'') (List.getElem?_eq_getElem hi')
      have hk := hform i _ _ (List.getElem?_eq_getElem hi'') (List.getElem?_eq_getElem hi)
      simpa using h.carries hr hk ha

end FollowsEntry

theorem TypeSystem.follows_read : FollowsEntry TypeSystem.read Group.annotations.form asOf := by
  have hstructs := Source.follows_oldTable StructInfo.follows_layout
  have hfunctions := Source.follows_readTable FunctionInfo.follows_layout
  constructor
  case inBounds =>
    intro s hs
    unfold read
    split
    · exact (hstructs.inBounds s _).bind fun _ _ => (hfunctions.inBounds s _).bind fun _ _ => .pure _
    · simp
  case sound =>
    intro s hs t ht i n hn
    match hs, ht with
    | [structs, functions], ht =>
      obtain ⟨a, ha, ht⟩ := bind_eq_ok.1 ht
      obtain ⟨b, hb, -⟩ := bind_eq_ok.1 ht
      match i, hn with
      | 0, hn =>
        cases hn
        exact hstructs.sound s _ a ha
      | 1, hn =>
        cases hn
        exact hfunctions.sound s _ b hb
  case carries =>
    intro s s' fits hs ks t hr hlen hform ht
    match hs, ht with
    | [structs, functions], ht =>
      match ks, hlen with
      | [structs', functions'], _ =>
        obtain ⟨a, ha, ht⟩ := bind_eq_ok.1 ht
        obtain ⟨b, hb, ht⟩ := bind_eq_ok.1 ht
        cases ht
        refine bind_eq_ok.2 ⟨a, hstructs.carries hr (hform 0 _ _ rfl rfl) ha, ?_⟩
        exact bind_eq_ok.2 ⟨_, hfunctions.carries hr (hform 1 _ _ rfl rfl) hb, rfl⟩

theorem PropsTable.read_eq (s : Source) (hs : List (Handle .node)) :
    read s hs = Ordered.ofList <$> hs.mapM (StageProps.read s) :=
  foldlM_insert_eq (StageProps.read s) hs .empty

theorem PropsTable.follows_read :
    FollowsEntry PropsTable.read Group.functionProps.form fun minor => Ordered.mapValues (StageProps.asOf minor) := by
  have h := (FollowsEntry.mapM StageProps.follows_read).map
    fun minor => Ordered.mapValues_ofList (StageProps.asOf minor)
  rw [show PropsTable.read = _ from funext fun s => funext (read_eq s)]
  exact h

/-- Properties that are read are of the stage that each of their records names. -/
theorem PropsTable.exists_stage_of_read {s : Source} {hs : List (Handle .node)} {t : PropsTable}
    (h : read s hs = .ok t) {n : Handle .node} (hn : n ∈ hs) :
    ∃ stage, s.program.stage? (some n) = some stage := by
  rw [read_eq] at h
  obtain ⟨entries, hentries, -⟩ := map_eq_ok.1 h
  obtain ⟨entry, -, hentry⟩ := exists_forall₂ (mapM_eq_ok.1 hentries).flip hn
  obtain ⟨stage, hstage, -⟩ := bind_eq_ok.1 ((StageProps.read_eq s n).symm.trans hentry)
  exact ⟨stage, StageProps.readStage_iff.1 hstage⟩

theorem follows_used : FollowsEntry (fun s hs => hs.mapM fun h => s.global "used global" (some h))
    Group.used.form asIs := by
  have h : Follows some (fun s h => s.global "used global" (some h)) .scalar asIs := by
    have hcell := Cell.follows_global "used global"
    exact ⟨fun s h => hcell.inBounds s (some h), fun _ _ _ _ => Form.sound_scalar,
      fun hr hform hg => hcell.carries hr hform hg⟩
  rw [← map_asIs]
  exact .mapM h

/-! ## Groups -/

/-- A failure of a group whose reader stayed in bounds. -/
def ShaderError.IsFault (e : ShaderError) : Prop :=
  ∃ g f, e = .malformed g f ∧ ∀ what i, f ≠ .noField what i

/-- What is read of a group follows the form of the operands in its entry. -/
structure Group.Follows {α : Type} (g : Group) (get : Source → Except ShaderError α)
    (asOf : UInt32 → α → α) : Prop where
  isFault : ∀ s e, get s = .error e → e.IsFault
  sound   : ∀ s a hs, get s = .ok a → s.program.named? g.name = some hs →
    ∀ i h, hs[i]? = some h → (g.form i).Sound s (some h)
  carries : ∀ {s s' fits a}, Recasting s s' fits → s.program.Recast s'.program fits →
    get s = .ok a → get s' = .ok (asOf s'.minor a)

namespace Group

variable {α : Type} {g : Group} {asOf : UInt32 → α → α} {absent : α}

theorem within_eq_error {x : Except Fault α} {e : ShaderError} :
    Program.within g x = .error e ↔ ∃ f, x = .error f ∧ e = .malformed g f := by
  cases x with
  | error f => simp [Program.within, Except.mapError, eq_comm]
  | ok a => simp [Program.within, Except.mapError]

theorem follows_operands (hg : g ≠ .version) {read : Source → List (Handle .node) → Except Fault α}
    (h : FollowsEntry read g.form asOf) (habsent : ∀ minor, asOf minor absent = absent) :
    g.Follows (fun s => s.program.readOperands g absent (read s)) asOf where
  isFault s e he := by
    obtain ⟨f, hf, rfl⟩ := within_eq_error.1 he
    refine ⟨g, f, rfl, ?_⟩
    rintro what i rfl
    split at hf
    · exact h.inBounds s _ what i hf
    · cases hf
  sound s a hs ha hnamed i n hn := by
    have ha := Tables.within_eq_ok.1 ha
    rw [hnamed] at ha
    exact h.sound s hs a ha i n hn
  carries {s s' fits a} hr hrecast ha := by
    refine Tables.within_eq_ok.2 ?_
    have ha := Tables.within_eq_ok.1 ha
    rcases hrecast.entries g hg with ⟨hp, hq⟩ | ⟨hs, ks, hp, hq, hlen, hform⟩
    · rw [hp] at ha
      cases ha
      rw [hq, habsent]
    · rw [hp] at ha
      rw [hq]
      exact h.carries hr hlen hform ha

theorem readGroup_eq (p : Program) (read : Handle .node → Except Fault α) :
    p.readGroup g absent read = p.readOperands g absent (fun hs => match hs with
      | [n] => read n
      | _ => .error (.notOneOperand hs.length)) := by
  unfold Program.readGroup Program.readOperands Program.single?
  cases p.named? g.name with
  | none => rfl
  | some hs =>
    match hs with
    | [] => rfl
    | [n] => rfl
    | _ :: _ :: _ => rfl

theorem follows_single (hg : g ≠ .version) {read : Source → Handle .node → Except Fault α}
    (h : ShaderModule.Follows some read (g.form 0) asOf) (hform : g.form = fun _ => g.form 0)
    (habsent : ∀ minor, asOf minor absent = absent) :
    g.Follows (fun s => s.program.readGroup g absent (read s)) asOf := by
  simp only [readGroup_eq]
  refine follows_operands hg ?_ habsent
  rw [hform]
  exact .single h

end Group

namespace Tables

/-- Every group of the source is read, and what is read makes up the tables. -/
structure Loaded (s : Source) (t : Tables) : Prop where
  profile : s.program.readGroup .profile none (fun h => some <$> Profile.layout.read s h) = .ok t.profile
  entry : s.program.readGroup .entryPoints .unset (EntryPoint.layout.read s) = .ok t.entryPoint
  resources : s.program.readGroup .resources .empty (Registry.layout.read s) = .ok t.resources
  types : s.program.readOperands .annotations .empty (TypeSystem.read s) = .ok t.types
  props : s.program.readOperands .functionProps .empty (PropsTable.read s) = .ok t.props
  options : s.program.readGroup .options .unset (Options.read s) = .ok t.options
  resourceTypes :
    s.program.readGroup .resourceTypes .empty (s.readTable ResourceTypes.layout) = .ok t.resourceTypes
  rootSignature :
    s.program.readGroup .rootSignature [] (rootSignatureLayout.read s) = .ok t.rootSignature
  used : s.program.readOperands .used [] (fun hs => hs.mapM fun h => s.global "used global" (some h)) =
    .ok t.used
  shared : t.shared = s.program.sharedGlobals

/-- A program is loaded if its version is read and all its groups are. -/
theorem load_eq_ok {p : Program} {t : Tables} :
    load p = .ok t ↔ ∃ v, p.readVersion = .ok v ∧ Loaded ⟨p, v.minor⟩ t := by
  constructor
  · intro h
    obtain ⟨v, hv, h⟩ := bind_eq_ok.1 h
    obtain ⟨profile, hprofile, h⟩ := bind_eq_ok.1 h
    obtain ⟨entry, hentry, h⟩ := bind_eq_ok.1 h
    obtain ⟨resources, hresources, h⟩ := bind_eq_ok.1 h
    obtain ⟨types, htypes, h⟩ := bind_eq_ok.1 h
    obtain ⟨props, hprops, h⟩ := bind_eq_ok.1 h
    obtain ⟨options, hoptions, h⟩ := bind_eq_ok.1 h
    obtain ⟨resourceTypes, hresourceTypes, h⟩ := bind_eq_ok.1 h
    obtain ⟨rootSignature, hroot, h⟩ := bind_eq_ok.1 h
    obtain ⟨used, hused, h⟩ := bind_eq_ok.1 h
    cases h
    exact ⟨v, hv, ⟨hprofile, hentry, hresources, htypes, hprops, hoptions, hresourceTypes, hroot, hused, rfl⟩⟩
  · rintro ⟨v, hv, h⟩
    refine bind_eq_ok.2 ⟨v, hv, bind_eq_ok.2 ⟨_, h.profile, bind_eq_ok.2 ⟨_, h.entry, ?_⟩⟩⟩
    refine bind_eq_ok.2 ⟨_, h.resources, bind_eq_ok.2 ⟨_, h.types, bind_eq_ok.2 ⟨_, h.props, ?_⟩⟩⟩
    refine bind_eq_ok.2 ⟨_, h.options, bind_eq_ok.2 ⟨_, h.resourceTypes, bind_eq_ok.2 ⟨_, h.rootSignature, ?_⟩⟩⟩
    refine bind_eq_ok.2 ⟨_, h.used, ?_⟩
    rw [← h.shared]
    rfl

theorem follows_profile : Group.profile.Follows (fun s => s.program.readGroup .profile none
    fun h => some <$> Profile.layout.read s h) asIs :=
  Group.follows_single (by simp) (Profile.follows_layout.map fun _ _ => rfl) rfl fun _ => rfl

theorem follows_entryPoints : Group.entryPoints.Follows
    (fun s => s.program.readGroup .entryPoints .unset (EntryPoint.layout.read s)) asIs :=
  Group.follows_single (by simp) EntryPoint.follows_layout rfl fun _ => rfl

theorem follows_resources : Group.resources.Follows
    (fun s => s.program.readGroup .resources .empty (Registry.layout.read s)) Registry.asOf :=
  Group.follows_single (by simp) Registry.follows_layout rfl fun _ => rfl

theorem follows_annotations : Group.annotations.Follows
    (fun s => s.program.readOperands .annotations .empty (TypeSystem.read s)) TypeSystem.asOf :=
  Group.follows_operands (by simp) TypeSystem.follows_read fun _ => rfl

theorem follows_functionProps : Group.functionProps.Follows
    (fun s => s.program.readOperands .functionProps .empty (PropsTable.read s))
    fun minor => Ordered.mapValues (StageProps.asOf minor) :=
  Group.follows_operands (by simp) PropsTable.follows_read fun _ => rfl

theorem follows_options : Group.options.Follows
    (fun s => s.program.readGroup .options .unset (Options.read s)) asIs :=
  Group.follows_single (by simp) Options.follows_read rfl fun _ => rfl

theorem follows_resourceTypes : Group.resourceTypes.Follows
    (fun s => s.program.readGroup .resourceTypes .empty (s.readTable ResourceTypes.layout)) asIs :=
  Group.follows_single (by simp) (Source.follows_oldTable ResourceTypes.follows_layout) rfl fun _ => rfl

theorem follows_rootSignature : Group.rootSignature.Follows
    (fun s => s.program.readGroup .rootSignature [] (rootSignatureLayout.read s)) asIs :=
  Group.follows_single (by simp) follows_rootSignatureLayout rfl fun _ => rfl

theorem follows_used : Group.used.Follows (fun s => s.program.readOperands .used []
    fun hs => hs.mapM fun h => s.global "used global" (some h)) asIs :=
  Group.follows_operands (by simp) ShaderModule.follows_used fun _ => rfl

/-- All records in the groups that are read have the right number of operands. -/
theorem Loaded.sound {s : Source} {t : Tables} (ht : Loaded s t) {g : Group} (hg : g ≠ .version)
    {hs : List (Handle .node)} (hnamed : s.program.named? g.name = some hs) {i : Nat} {h : Handle .node}
    (hi : hs[i]? = some h) : (g.form i).Sound s (some h) := by
  cases g with
  | version => exact absurd rfl hg
  | profile => exact follows_profile.sound s _ hs ht.profile hnamed i h hi
  | entryPoints => exact follows_entryPoints.sound s _ hs ht.entry hnamed i h hi
  | resources => exact follows_resources.sound s _ hs ht.resources hnamed i h hi
  | annotations => exact follows_annotations.sound s _ hs ht.types hnamed i h hi
  | functionProps => exact follows_functionProps.sound s _ hs ht.props hnamed i h hi
  | options => exact follows_options.sound s _ hs ht.options hnamed i h hi
  | resourceTypes => exact follows_resourceTypes.sound s _ hs ht.resourceTypes hnamed i h hi
  | rootSignature => exact follows_rootSignature.sound s _ hs ht.rootSignature hnamed i h hi
  | used => exact follows_used.sound s _ hs ht.used hnamed i h hi

/-- Recast metadata makes up the tables as of its version. -/
theorem Loaded.recast {s s' : Source} {t : Tables} {fits : RecordKind → Nat → Nat → Prop} (ht : Loaded s t)
    (hr : Recasting s s' fits) (h : s.program.Recast s'.program fits) : Loaded s' (t.asOf s'.minor) where
  profile := follows_profile.carries hr h ht.profile
  entry := follows_entryPoints.carries hr h ht.entry
  resources := follows_resources.carries hr h ht.resources
  types := follows_annotations.carries hr h ht.types
  props := follows_functionProps.carries hr h ht.props
  options := follows_options.carries hr h ht.options
  resourceTypes := follows_resourceTypes.carries hr h ht.resourceTypes
  rootSignature := follows_rootSignature.carries hr h ht.rootSignature
  used := follows_used.carries hr h ht.used
  shared := by
    refine ht.shared.trans ?_
    simp only [Program.sharedGlobals, Program.global?, h.globals]

end Tables

/-! ## The version -/

namespace Program

variable {p : Program}

theorem Declares.unique {v v' : Version} {extra extra' : List Operand} (h : p.Declares v extra)
    (h' : p.Declares v' extra') : v = v' ∧ extra = extra' := by
  obtain ⟨n, major, minor, hn, hops, hmajor, hminor⟩ := h
  obtain ⟨n', major', minor', hn', hops', hmajor', hminor'⟩ := h'
  rw [hn] at hn'
  cases hn'
  rw [hops] at hops'
  cases hops'
  rw [hmajor] at hmajor'
  rw [hminor] at hminor'
  cases v
  cases v'
  cases hmajor'
  cases hminor'
  exact ⟨rfl, rfl⟩

theorem single?_eq_some {g : Group} {h : Handle .node} :
    p.single? g = .ok (some h) ↔ p.named? g.name = some [h] := by
  unfold single?
  split
  · next hn => simp [hn]
  · next hn => simp [hn]
  · next hn hne => simp_all

/-- The version and the operands after it, before it is known whether they can be read. -/
def header (p : Program) : Except Fault (Version × List Operand) := do
  let some h ← p.single? .version | throw .noVersion
  let s : Source := ⟨p, Version.current.minor⟩
  match ← s.operands h with
  | major :: minor :: extra =>
    return (⟨← s.word "major version" major, ← s.word "minor version" minor⟩, extra)
  | ops => throw (.versionFields ops.length)

theorem header_eq_ok {v : Version} {extra : List Operand} :
    p.header = .ok (v, extra) ↔ p.Declares v extra := by
  unfold header Declares
  constructor
  · intro h
    obtain ⟨found, hfound, h⟩ := bind_eq_ok.1 h
    cases found with
    | none => cases h
    | some n =>
      obtain ⟨ops, hops, h⟩ := bind_eq_ok.1 h
      match ops, h with
      | major :: minor :: rest, h =>
        obtain ⟨a, ha, h⟩ := bind_eq_ok.1 h
        obtain ⟨b, hb, h⟩ := bind_eq_ok.1 h
        cases h
        exact ⟨n, major, minor, single?_eq_some.1 hfound, Source.operands_iff.1 hops, Source.word_iff.1 ha,
          Source.word_iff.1 hb⟩
  · rintro ⟨n, major, minor, hn, hops, hmajor, hminor⟩
    refine bind_eq_ok.2 ⟨_, single?_eq_some.2 hn, bind_eq_ok.2 ⟨_, Source.operands_iff.2 hops, ?_⟩⟩
    refine bind_eq_ok.2 ⟨_, Source.word_iff.2 hmajor, bind_eq_ok.2 ⟨_, Source.word_iff.2 hminor, rfl⟩⟩

theorem inBounds_single? (g : Group) : InBounds (p.single? g) := by
  unfold single?
  split <;> simp

theorem inBounds_header : InBounds p.header := by
  refine (inBounds_single? .version).bind fun found _ => ?_
  cases found with
  | none => simp
  | some n =>
    refine (Source.inBounds_operands n).bind fun ops _ => ?_
    split
    · refine ((Cell.follows_word _).inBounds _ _).bind fun a _ => ?_
      exact ((Cell.follows_word _).inBounds _ _).bind fun b _ => .pure _
    · simp

/-- What becomes of a version with some number of operands after it. -/
def judge (v : Version) (extra : Nat) : Except ShaderError Version :=
  if v.major ≠ Version.current.major then .error (.unsupportedVersion v)
  else if RecordKind.version.Accepts v.minor (extra + 2) then .ok v
  else .error (.malformed .version (.fieldCount "version" (extra + 2) 2))

/-- The version is read off the header. -/
theorem readVersion_eq (p : Program) :
    p.readVersion = within .version p.header >>= fun found => judge found.1 found.2.length := by
  unfold readVersion header
  cases p.single? .version with
  | error f => rfl
  | ok found =>
    cases found with
    | none => rfl
    | some n =>
      cases hops : Source.operands ⟨p, Version.current.minor⟩ n with
      | error f => simp [hops, within, Except.mapError, bind, Except.bind]
      | ok ops =>
        simp only [hops, within, Except.mapError, bind, Except.bind]
        match ops, hops with
        | [], _ => rfl
        | [_], _ => rfl
        | major :: minor :: extra, hops =>
          simp only
          cases Source.word ⟨p, Version.current.minor⟩ "major version" major with
          | error f => rfl
          | ok a =>
            cases Source.word ⟨p, Version.current.minor⟩ "minor version" minor with
            | error f => rfl
            | ok b =>
              have hrecord : Source.record ⟨p, b⟩ "version" 2 n =
                  if RecordKind.version.Accepts b (extra.length + 2) then .ok [major, minor]
                  else .error (.fieldCount "version" (extra.length + 2) 2) :=
                Source.record_eq_ite (s := ⟨p, b⟩) "version" .version (Source.operands_iff.1 hops)
              by_cases hmajor : a = Version.current.major <;>
                by_cases hacc : RecordKind.version.Accepts b (extra.length + 2) <;>
                  simp [judge, hrecord, hmajor, hacc, throw, throwThe, MonadExceptOf.throw, pure, Except.pure]

/-- A version is read if it is declared, of the major version that is known, and accepted. -/
theorem readVersion_eq_ok {v : Version} : p.readVersion = .ok v ↔ ∃ extra, p.Declares v extra ∧
    v.major = Version.current.major ∧ RecordKind.version.Accepts v.minor (extra.length + 2) := by
  rw [readVersion_eq, bind_eq_ok]
  simp only [Prod.exists, Tables.within_eq_ok, header_eq_ok, judge]
  constructor
  · rintro ⟨w, extra, hw, hv⟩
    split at hv
    · cases hv
    · next hmajor =>
      split at hv
      · next hacc =>
        cases hv
        exact ⟨extra, hw, not_not.1 hmajor, hacc⟩
      · cases hv
  · rintro ⟨extra, hv, hmajor, hacc⟩
    exact ⟨v, extra, hv, by rw [if_neg (not_not.2 hmajor), if_pos hacc]⟩

/-- A version that is not read is unsupported if it is declared with another major version; otherwise it
has a fault. -/
theorem readVersion_eq_error {e : ShaderError} (h : p.readVersion = .error e) : e.IsFault ∨
    ∃ v extra, p.Declares v extra ∧ v.major ≠ Version.current.major ∧ e = .unsupportedVersion v := by
  rw [readVersion_eq] at h
  cases hheader : p.header with
  | error f =>
    rw [hheader] at h
    cases h
    exact .inl ⟨_, f, rfl, fun what i hf => inBounds_header what i (hf ▸ hheader)⟩
  | ok found =>
    obtain ⟨v, extra⟩ := found
    rw [hheader] at h
    change judge v extra.length = .error e at h
    unfold judge at h
    split at h
    · next hmajor =>
      cases h
      exact .inr ⟨v, extra, header_eq_ok.1 hheader, hmajor, rfl⟩
    · split at h
      · cases h
      · cases h
        exact .inl ⟨_, _, rfl, by simp⟩

theorem readVersion_of_other_major {v : Version} {extra : List Operand} (h : p.Declares v extra)
    (hmajor : v.major ≠ Version.current.major) : p.readVersion = .error (.unsupportedVersion v) := by
  rw [readVersion_eq, header_eq_ok.2 h]
  exact if_pos hmajor

end Program

/-! ## Loading -/

theorem ShaderError.isFault_of_bind {α β : Type} {x : Except ShaderError α} {f : α → Except ShaderError β}
    {e : ShaderError} (h : x >>= f = .error e) (hx : x = .error e → e.IsFault)
    (hf : ∀ a, f a = .error e → e.IsFault) : e.IsFault := by
  cases x with
  | error e' => exact hx (congrArg _ (Except.error.inj h))
  | ok a => exact hf a h

namespace Tables

variable {p : Program}

/-- A program that is not loaded has a fault, or declares another major version. -/
theorem load_eq_error {e : ShaderError} (h : load p = .error e) : e.IsFault ∨
    ∃ v extra, p.Declares v extra ∧ v.major ≠ Version.current.major ∧ e = .unsupportedVersion v := by
  cases hv : p.readVersion with
  | error e' =>
    have heq : e' = e := by
      simp only [load, hv] at h
      exact Except.error.inj h
    exact Program.readVersion_eq_error (heq ▸ hv)
  | ok v =>
    left
    simp only [load, hv] at h
    refine ShaderError.isFault_of_bind h (by simp) fun w h => ?_
    refine ShaderError.isFault_of_bind h (follows_profile.isFault ⟨p, w.minor⟩ e) fun _ h => ?_
    refine ShaderError.isFault_of_bind h (follows_entryPoints.isFault ⟨p, w.minor⟩ e) fun _ h => ?_
    refine ShaderError.isFault_of_bind h (follows_resources.isFault ⟨p, w.minor⟩ e) fun _ h => ?_
    refine ShaderError.isFault_of_bind h (follows_annotations.isFault ⟨p, w.minor⟩ e) fun _ h => ?_
    refine ShaderError.isFault_of_bind h (follows_functionProps.isFault ⟨p, w.minor⟩ e) fun _ h => ?_
    refine ShaderError.isFault_of_bind h (follows_options.isFault ⟨p, w.minor⟩ e) fun _ h => ?_
    refine ShaderError.isFault_of_bind h (follows_resourceTypes.isFault ⟨p, w.minor⟩ e) fun _ h => ?_
    refine ShaderError.isFault_of_bind h (follows_rootSignature.isFault ⟨p, w.minor⟩ e) fun _ h => ?_
    refine ShaderError.isFault_of_bind h (follows_used.isFault ⟨p, w.minor⟩ e) fun _ h => ?_
    cases h

theorem load_of_other_major {v : Version} {extra : List Operand} (h : p.Declares v extra)
    (hmajor : v.major ≠ Version.current.major) : load p = .error (.unsupportedVersion v) := by
  simp only [load, Program.readVersion_of_other_major h hmajor]
  rfl

/-- All records of a program that is loaded have the right number of operands. -/
theorem accepts_of_load {t : Tables} (h : load p = .ok t) {v : Version} {extra : List Operand}
    (hv : p.Declares v extra) {k : RecordKind} {xs : List Operand} (hx : p.Visits v.minor k xs) :
    k.Accepts v.minor xs.length := by
  obtain ⟨w, hw, ht⟩ := load_eq_ok.1 h
  obtain ⟨extra', hdecl, -, hacc⟩ := Program.readVersion_eq_ok.1 hw
  obtain ⟨rfl, rfl⟩ := hv.unique hdecl
  obtain ⟨g, hs, i, n, hnamed, hn, hvisits⟩ := hx
  by_cases hg : g = .version
  · subst hg
    obtain ⟨m, major, minor, hm, htuple, -, -⟩ := hdecl
    rw [hm] at hnamed
    cases hnamed
    obtain rfl : m = n := by
      have := List.mem_of_getElem? hn
      simp_all
    cases hvisits with
    | here hop =>
      rw [htuple] at hop
      cases hop
      exact hacc
    | field _ _ _ hfield => cases hfield
  · exact ht.sound hg hnamed hn k xs hvisits

/-- All records of properties in a program that is loaded name their stage. -/
theorem exists_stage_of_load {t : Tables} (h : load p = .ok t) {hs : List (Handle .node)}
    (hnamed : p.named? Group.functionProps.name = some hs) {n : Handle .node} (hn : n ∈ hs) :
    ∃ stage, p.stage? (some n) = some stage := by
  obtain ⟨v, -, ht⟩ := load_eq_ok.1 h
  have hread := within_eq_ok.1 ht.props
  rw [hnamed] at hread
  exact PropsTable.exists_stage_of_read hread hn

/-- Metadata of the current version that is recast for another minor version is loaded as of that
version. -/
theorem load_of_recast {q : Program} {t : Tables} {fits : RecordKind → Nat → Nat → Prop} {v : Version}
    (h : load p = .ok t) (hp : p.readVersion = .ok .current) (hq : q.readVersion = .ok v)
    (hrecast : p.Recast q fits)
    (hfits : ∀ k n, fits k (k.arity Version.current.minor) n → k.Accepts v.minor n) :
    load q = .ok (t.asOf v.minor) := by
  obtain ⟨w, hw, ht⟩ := load_eq_ok.1 h
  rw [hp] at hw
  cases hw
  have hr : Recasting ⟨p, Version.current.minor⟩ ⟨q, v.minor⟩ fits := by
    refine ⟨rfl, ?_, hfits⟩
    rintro (g | f) he
    · simpa only [Program.has, Program.hasGlobal, Program.global?, hrecast.globals] using he
    · simpa only [Program.has, Program.hasFunction, Program.function?, hrecast.functions] using he
  exact load_eq_ok.2 ⟨v, hq, ht.recast hr hrecast⟩

/-! ### What is mentioned -/

/-- The entities that the tables refer to, and the globals of group-shared memory that they list. -/
def mentions (t : Tables) : List Entity := t.references.map Prod.snd ++ t.shared.map .global

theorem forall_mentions_iff {t : Tables} :
    (∀ e ∈ t.mentions, p.has e) ↔ t.Live p ∧ ∀ g ∈ t.shared, p.hasGlobal g := by
  rw [mentions, List.forall_mem_append, ← dangling?_eq_none_iff, dangling?_eq_none]
  simp [Program.has]

/-- All that loaded tables mention is in the program. -/
theorem has_of_load {t : Tables} (h : load p = .ok t) : ∀ e ∈ t.mentions, p.has e := by
  obtain ⟨-, hnormal, hlive⟩ := wellFormed_of_load h
  refine forall_mentions_iff.2 ⟨hlive, fun g hg => ?_⟩
  rw [← hnormal] at hg
  obtain ⟨x, hx, -⟩ := (Option.any_eq_true _ _).1 (List.mem_filter.1 hg).2
  exact Option.isSome_of_eq_some hx

end Tables

end ShaderModule
