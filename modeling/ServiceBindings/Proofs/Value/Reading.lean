import Mathlib.Data.List.Nodup
import ServiceBindings.Proofs.Steps
import ServiceBindings.Proofs.Value.Typing
import ServiceBindings.Value.Reading

/-! Values that are read fit the targets as which they are read. -/
namespace ServiceBindings
open Plan (Binding HaveOwnNames Heading Layout Target)

/-- Data without parts of a kind. Nothing but streaming blobs comes from sources. -/
def Value.IsOfKind (kind : Scalar) (_ : Option Time.Format) (streaming : Bool) : Value → Prop
  | .string _ => kind = .string
  | .boolean _ => kind = .boolean
  | .integer _ => kind = .integer
  | .float _ => kind = .float
  | .timestamp _ => kind = .timestamp
  | .blob _ => kind = .blob
  | .stream _ => kind = .blob ∧ streaming = true
  | _ => False

theorem not_ok_misfit {α : Type} {path expected : String} {doc : Document} {a : α} :
    misfit path expected doc ≠ .ok a := by
  simp [misfit]

theorem isOfKind_of_readBlob {origin : Origin} {path s : String} {format : Option Time.Format}
    {streaming : Bool} {value : Value} (h : readBlob origin path streaming s = .ok value) :
    value.IsOfKind .blob format streaming := by
  unfold readBlob at h
  split at h
  · split_ifs at h with hstreaming
    · obtain rfl := Except.ok.inj h
      exact ⟨rfl, hstreaming⟩
    · obtain rfl := Except.ok.inj h
      rfl
  · split at h
    · obtain rfl := Except.ok.inj h
      rfl
    · simp at h

theorem isOfKind_of_readInstant {path s : String} {asked format : Option Time.Format}
    {streaming : Bool} {value : Value} (h : readInstant path asked s = .ok value) :
    value.IsOfKind .timestamp format streaming := by
  unfold readInstant at h
  split at h
  · obtain rfl := Except.ok.inj h
    rfl
  · simp at h

theorem getD_eq_ok {α β : Type} {found : Option α} {make : α → β} {wrong : Except Misfit β}
    {b : β} (hwrong : wrong ≠ .ok b)
    (h : (found.map fun a => (.ok (make a) : Except Misfit β)).getD wrong = .ok b) :
    ∃ a, make a = b := by
  cases found with
  | none => exact absurd h hwrong
  | some a => exact ⟨a, Except.ok.inj h⟩

/-- Scalars are read as data of their kinds. -/
theorem isOfKind_of_readScalar {origin : Origin} {kind : Scalar} {format : Option Time.Format}
    {streaming : Bool} {path : String} {doc : Document} {value : Value}
    (h : readScalar origin kind format streaming path doc = .ok value) :
    value.IsOfKind kind format streaming := by
  unfold readScalar at h
  dsimp only at h
  split at h
  case h_1 | h_2 | h_3 | h_4 | h_8 | h_10 =>
    obtain rfl := Except.ok.inj h
    rfl
  case h_5 =>
    split_ifs at h
    · obtain rfl := Except.ok.inj h
      rfl
    · obtain rfl := Except.ok.inj h
      rfl
    · exact absurd h not_ok_misfit
  case h_6 | h_7 | h_9 =>
    obtain ⟨_, rfl⟩ := getD_eq_ok not_ok_misfit h
    rfl
  case h_11 => exact isOfKind_of_readInstant h
  case h_12 => exact isOfKind_of_readBlob h
  case h_13 => exact absurd h not_ok_misfit

section
variable {step : String → Document → Except Misfit (Option Value)}

theorem exists_of_mem_readItems {path : String} {position : Nat} {docs : List Document}
    {items : List Value} (h : readItems step path position docs = .ok items) {value : Value}
    (hmem : value ∈ items) : ∃ path, ∃ doc ∈ docs, step path doc = .ok (some value) := by
  induction docs generalizing position items with
  | nil =>
    obtain rfl := Except.ok.inj h
    simp at hmem
  | cons doc rest ih =>
    rw [readItems] at h
    obtain ⟨first, hfirst, h⟩ := bind_eq_ok.1 h
    obtain ⟨others, hothers, h⟩ := bind_eq_ok.1 h
    obtain rfl := Except.ok.inj h
    rcases List.mem_append.1 hmem with hmem | hmem
    · obtain rfl : first = some value := by simpa using hmem
      exact ⟨_, doc, List.mem_cons_self, hfirst⟩
    · obtain ⟨path, other, hother, hstep⟩ := ih hothers hmem
      exact ⟨path, other, List.mem_cons_of_mem _ hother, hstep⟩

/-- Entries have distinct keys, and each value was read. -/
structure AreReadWith (step : String → Document → Except Misfit (Option Value))
    (entries : Fields Value) : Prop where
  keys : (Fields.names entries).Nodup
  read : ∀ entry ∈ entries, ∃ path doc, step path doc = .ok (some entry.2)

theorem AreReadWith.nil : AreReadWith step [] :=
  ⟨List.nodup_nil, by simp⟩

theorem AreReadWith.set {entries : Fields Value} (h : AreReadWith step entries) {key path : String}
    {doc : Document} {value : Value} (hvalue : step path doc = .ok (some value)) :
    AreReadWith step (Fields.set key value entries) := by
  refine ⟨Fields.nodup_names_set h.keys key value, fun entry hmem => ?_⟩
  rcases Fields.mem_of_mem_set hmem with rfl | hmem
  · exact ⟨path, doc, hvalue⟩
  · exact h.read entry hmem

theorem AreReadWith.readEntries {path : String} {docs : List (String × Document)}
    {before entries : Fields Value} (hbefore : AreReadWith step before)
    (h : readEntries step path before docs = .ok entries) : AreReadWith step entries := by
  induction docs generalizing before with
  | nil =>
    obtain rfl := Except.ok.inj h
    exact hbefore
  | cons entry rest ih =>
    obtain ⟨key, doc⟩ := entry
    rw [ServiceBindings.readEntries] at h
    obtain ⟨found, hfound, h⟩ := bind_eq_ok.1 h
    cases found with
    | none => exact ih hbefore h
    | some value => exact ih (hbefore.set hfound) h

theorem AreReadWith.readElements {path : String} {keyName valueName : Option String}
    {docs : List Document} {before entries : Fields Value} (hbefore : AreReadWith step before)
    (h : readElements step path keyName valueName before docs = .ok entries) :
    AreReadWith step entries := by
  induction docs generalizing before with
  | nil =>
    obtain rfl := Except.ok.inj h
    exact hbefore
  | cons element rest ih =>
    rw [ServiceBindings.readElements] at h
    obtain ⟨entry, -, h⟩ := bind_eq_ok.1 h
    obtain ⟨between, hbetween, h⟩ := bind_eq_ok.1 h
    exact ih (hbefore.readEntries hbetween) h

end

/-- The present value of a step that leaves out null. -/
theorem readPresent_of_step {origin : Origin} {path : String} {doc : Document} {target : Target}
    {value : Value}
    (h : (if doc.isNull then .ok none else (readPresent origin path doc target).map some) =
      .ok (some value)) : readPresent origin path doc target = .ok value := by
  split_ifs at h
  · simp at h
  · obtain ⟨found, hfound, heq⟩ := map_eq_ok.1 h
    rw [hfound, Option.some.inj heq]

/-- Whatever is read as data without parts is as `leaf` says. -/
def ReadsData (origin : Origin)
    (leaf : Scalar → Option Time.Format → Bool → Value → Prop) : Prop :=
  ∀ ⦃kind format streaming path doc value⦄,
    readScalar origin kind format streaming path doc = .ok value →
      leaf kind format streaming value

theorem readsData_isOfKind (origin : Origin) : ReadsData origin Value.IsOfKind :=
  fun _ _ _ _ _ _ => isOfKind_of_readScalar

section
variable {leaf : Scalar → Option Time.Format → Bool → Value → Prop}

/-- Members that were read stand under the names of theirs, in order, and fit them. -/
structure FitTheirs (leaf : Scalar → Option Time.Format → Bool → Value → Prop)
    (members : List (Binding × Target)) (found : Fields Value) : Prop where
  names : (Fields.names found).Sublist (members.map (·.1.name))
  fits : ∀ entry ∈ found, ∃ member ∈ members, member.1.name = entry.1 ∧
    entry.2.Fits leaf member.2

theorem FitTheirs.absent {members : List (Binding × Target)} {found : Fields Value}
    (h : FitTheirs leaf members found) (member : Binding × Target) :
    FitTheirs leaf (member :: members) found := by
  refine ⟨h.names.cons _, fun entry hmem => ?_⟩
  obtain ⟨other, hother, hfits⟩ := h.fits entry hmem
  exact ⟨other, List.mem_cons_of_mem _ hother, hfits⟩

theorem FitTheirs.present {members : List (Binding × Target)} {found : Fields Value}
    (h : FitTheirs leaf members found) {binding : Binding} {target : Target} {value : Value}
    (hvalue : value.Fits leaf target) :
    FitTheirs leaf ((binding, target) :: members) ((binding.name, value) :: found) := by
  refine ⟨h.names.cons_cons _, fun entry hmem => ?_⟩
  rcases List.mem_cons.1 hmem with rfl | hmem
  · exact ⟨_, List.mem_cons_self, rfl, hvalue⟩
  · obtain ⟨other, hother, hfits⟩ := h.fits entry hmem
    exact ⟨other, List.mem_cons_of_mem _ hother, hfits⟩

/-- A name belongs to one member. -/
theorem Plan.HaveOwnNames.eq_of_name {members : List (Binding × Target)}
    (h : HaveOwnNames members) {a b : Binding × Target} (ha : a ∈ members) (hb : b ∈ members)
    (hname : a.1.name = b.1.name) : a = b :=
  List.inj_on_of_nodup_map h ha hb hname

/-- Members that fit theirs make up a structure that fits, when names tell the members apart. -/
theorem FitTheirs.structure {heading : Heading} {members : List (Binding × Target)}
    {found : Fields Value} (h : FitTheirs leaf members found) (hnames : HaveOwnNames members) :
    (Value.structure heading.shape found).Fits leaf (.structure heading members) := by
  refine ⟨found, rfl, h.names.nodup hnames, fun name hmem => ?_,
    Value.fitMembers_iff.2 fun member hmember value hvalue => ?_⟩
  · obtain ⟨entry, hentry, rfl⟩ := List.mem_map.1 hmem
    obtain ⟨member, hmember, hname, -⟩ := h.fits entry hentry
    exact ⟨member, hmember, hname⟩
  · obtain ⟨other, hother, hname, hfits⟩ := h.fits _ (Fields.mem_of_get? hvalue)
    rwa [hnames.eq_of_name hother hmember hname] at hfits

mutual

/-- What is read fits its target, wherever it comes from. -/
theorem ReadsData.fits_of_readPresent {origin : Origin} (hleaf : ReadsData origin leaf)
    {path : String} {doc : Document} (target : Target) {value : Value}
    (hnames : target.EachStructure HaveOwnNames)
    (h : readPresent origin path doc target = .ok value) : value.Fits leaf target := by
  cases target with
  | scalar kind format streaming =>
    rw [readPresent] at h
    exact hleaf h
  | enumeration e =>
    rw [readPresent.eq_def] at h
    dsimp only at h
    split at h
    · exact ⟨_, (Except.ok.inj h).symm⟩
    · exact absurd h not_ok_misfit
  | list shape item itemName flattened =>
    rw [readPresent] at h
    obtain ⟨docs, -, h⟩ := bind_eq_ok.1 h
    obtain ⟨items, hitems, h⟩ := bind_eq_ok.1 h
    refine ⟨items, (Except.ok.inj h).symm, fun found hmem => ?_⟩
    obtain ⟨path, doc, -, hstep⟩ := exists_of_mem_readItems hitems hmem
    exact hleaf.fits_of_readPresent item hnames (readPresent_of_step hstep)
  | map shape key target keyName valueName flattened =>
    have hfits (entries : Fields Value)
        (h : AreReadWith (fun path doc =>
          if doc.isNull then .ok none else (readPresent origin path doc target).map some) entries)
        (heq : value = .map entries) :
        value.Fits leaf (.map shape key target keyName valueName flattened) := by
      refine ⟨entries, heq, h.keys, fun entry hmem => ?_⟩
      obtain ⟨path, doc, hstep⟩ := h.read entry hmem
      exact hleaf.fits_of_readPresent target hnames (readPresent_of_step hstep)
    rw [readPresent.eq_def] at h
    dsimp only at h
    split at h
    · obtain ⟨elements, -, h⟩ := bind_eq_ok.1 h
      obtain ⟨entries, hentries, h⟩ := bind_eq_ok.1 h
      exact hfits entries (AreReadWith.nil.readElements hentries) (Except.ok.inj h).symm
    · obtain ⟨entries, hentries, h⟩ := bind_eq_ok.1 h
      exact hfits entries (AreReadWith.nil.readEntries hentries) (Except.ok.inj h).symm
    · exact absurd h not_ok_misfit
  | «structure» heading members =>
    rw [readPresent] at h
    obtain ⟨docs, -, h⟩ := bind_eq_ok.1 h
    obtain ⟨found, hfound, h⟩ := bind_eq_ok.1 h
    obtain rfl := Except.ok.inj h
    exact (hleaf.fitTheirs_of_readMembers members hnames.2 hfound).structure hnames.1

/-- Members that are read fit theirs. -/
theorem ReadsData.fitTheirs_of_readMembers {origin : Origin} (hleaf : ReadsData origin leaf)
    {path : String} {docs : Fields Document} (members : List (Binding × Target))
    {found : Fields Value} (hnames : Target.EachMember HaveOwnNames members)
    (h : readMembers origin path docs members = .ok found) : FitTheirs leaf members found := by
  match members with
  | [] =>
    obtain rfl := Except.ok.inj h
    exact ⟨.slnil, by simp⟩
  | (binding, target) :: rest =>
    rw [readMembers.eq_def] at h
    dsimp only at h
    split at h
    · exact (hleaf.fitTheirs_of_readMembers rest hnames.2 h).absent _
    · split_ifs at h
      · exact (hleaf.fitTheirs_of_readMembers rest hnames.2 h).absent _
      · obtain ⟨value, hvalue, h⟩ := bind_eq_ok.1 h
        obtain ⟨others, hothers, h⟩ := bind_eq_ok.1 h
        obtain rfl := Except.ok.inj h
        exact (hleaf.fitTheirs_of_readMembers rest hnames.2 hothers).present
          (hleaf.fits_of_readPresent target hnames.1 hvalue)

end

/-- A record that is read fits the structure as which it is read. -/
theorem ReadsData.fits_of_readRecord {origin : Origin} (hleaf : ReadsData origin leaf)
    {path : String} {doc : Document} {layout : Layout} {record : Record}
    (hnames : layout.toTarget.EachStructure HaveOwnNames)
    (h : readRecord origin path layout doc = .ok record) :
    record.toValue.Fits leaf layout.toTarget := by
  rw [readRecord] at h
  obtain ⟨docs, -, h⟩ := bind_eq_ok.1 h
  obtain ⟨found, hfound, h⟩ := bind_eq_ok.1 h
  obtain rfl := Except.ok.inj h
  exact (hleaf.fitTheirs_of_readMembers layout.members hnames.2 hfound).structure hnames.1

end

/-- A record that is read fits the structure as which it is read, wherever it comes from. -/
theorem fits_of_readRecord {origin : Origin} {path : String} {doc : Document} {layout : Layout}
    {record : Record} (hnames : layout.toTarget.EachStructure HaveOwnNames)
    (h : readRecord origin path layout doc = .ok record) :
    record.toValue.Fits Value.IsOfKind layout.toTarget :=
  (readsData_isOfKind origin).fits_of_readRecord hnames h

end ServiceBindings
