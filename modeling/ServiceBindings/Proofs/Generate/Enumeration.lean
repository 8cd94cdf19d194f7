import ServiceBindings.Generate.Compile
import ServiceBindings.Generate.Memory
import ServiceBindings.Proofs.Generate.Work
import ServiceBindings.Proofs.Plan.Constants

/-! Values of an enumeration that share a constant are refused or settled as the policy says. -/
namespace ServiceBindings.Generate
open Naming (constantCase)
open Plan (ConstantsApart Enumeration IsKept)

variable {σ : Type} [Sink σ] {job : Job} {shape : Shape} {values : List String}

/-- The enumeration of some constants, with the name that its shape has or gets. -/
def enumerationOf (ledger : Ledger) (shape : Shape) (constants : List Plan.Constant) :
    Enumeration where
  ident := (ledger.names.shape shape).1
  shape := shape.name
  constants

/-- Compiling an enumeration for the first time hands over one item, unless its values collide. -/
theorem ends_compileEnumeration {state : Ledger × σ}
    {post : Except CompileError Enumeration → Ledger × σ → Prop}
    (hkind : shape.kind = .enumeration values)
    (hnew : Fields.get? state.1.enumerations shape.name = none) :
    (compileEnumeration job shape).Ends state post ↔
      match Plan.constantsOf job.settings.enumCollision shape.name values with
      | .error fault => post (.error (.model fault)) state
      | .ok constants =>
        let named := { state.1 with names := (state.1.names.shape shape).2 }
        let e := enumerationOf state.1 shape constants
        match Sink.write (job.artifact e.ident (enumerationSource e)) state.2 with
        | (.error fault, sink) => post (.error (.emit fault)) (named, sink)
        | (.ok _, sink) =>
          post (.ok e)
            ({ named with enumerations := Fields.set shape.name e state.1.enumerations },
              sink) := by
  unfold compileEnumeration
  rw [hkind]
  dsimp only
  rw [Work.ends_bind, Work.ends_lookUp, hnew]
  dsimp only
  rw [Work.ends_bind, Work.ends_ofModel]
  cases Plan.constantsOf job.settings.enumCollision shape.name values with
  | error fault => exact Iff.rfl
  | ok constants =>
    show Work.Ends _ state post ↔ _
    rw [Work.ends_bind, Work.ends_nameShape]
    dsimp only
    rw [Work.ends_bind, Work.ends_emit]
    unfold enumerationOf
    dsimp only
    rcases Sink.write _ state.2 with ⟨fault | outcome, sink⟩
    · exact Iff.rfl
    · exact Iff.rfl

/-- Distinct values are admitted unless they must not collide and two of them have one constant. -/
theorem exists_constantsOf_iff_of_nodup {policy : CollisionPolicy} {name : String}
    (hdistinct : values.Nodup) :
    (∃ constants, Plan.constantsOf policy name values = .ok constants) ↔
      (policy = .reject →
        ∀ a ∈ values, ∀ b ∈ values, constantCase a = constantCase b → a = b) := by
  have hapart : ConstantsApart values ↔
      ∀ a ∈ values, ∀ b ∈ values, constantCase a = constantCase b → a = b :=
    List.nodup_map_iff_inj_on hdistinct
  exact Plan.exists_constantsOf_iff.trans (imp_congr_right fun _ => hapart)

/-- The constants that values of an enumeration come to, in order, and the values it contains. -/
theorem constants_of_constantsOf {policy : CollisionPolicy} {name : String} {ledger : Ledger}
    {constants : List Plan.Constant}
    (hconstants : Plan.constantsOf policy name values = .ok constants) :
    let e := enumerationOf ledger shape constants
    e.constants.Pairwise (fun a b => a.name < b.name) ∧
      (∀ name, (∃ constant ∈ e.constants, constant.name = name) ↔
        ∃ value ∈ values, constantCase value = name) ∧
      (∀ constant ∈ e.constants,
        constant.name = constantCase constant.value ∧ IsKept values constant.value) ∧
      (∀ value, e.contains value = true ↔ IsKept values value) ∧
      (policy = .reject → ∀ value, e.contains value = true ↔ value ∈ values) := by
  intro e
  have hkept := Plan.kept_of_constantsOf hconstants
  have hcontains : ∀ value, e.contains value = true ↔ IsKept values value :=
    fun value => hkept.contains_iff
  refine ⟨hkept.ordered, fun name => hkept.exists_name_iff, fun constant hmem => ?_, hcontains,
    fun hreject value => ?_⟩
  · obtain ⟨hlast, hname⟩ := (hkept.mem_iff constant).1 hmem
    exact ⟨hname, hlast⟩
  · have hapart := Plan.exists_constantsOf_iff.1 ⟨constants, hconstants⟩ hreject
    rw [hcontains, hapart.isKept_iff]

/-- Compiling an enumeration for the first time. Its values are admitted unless they must not
collide and two of them have one constant. Then the enumeration is compiled if its item is taken.
Else the first value whose constant is taken is refused, together with the value that took it, and
nothing is handed over or changed. The constants of a compiled enumeration are those of its values,
each with the value that was declared last. -/
theorem collisions_settled_by_policy {ledger : Ledger} {sink : σ}
    (hkind : shape.kind = .enumeration values) (hdistinct : values.Nodup)
    (hnew : Fields.get? ledger.enumerations shape.name = none) :
    let injective := ∀ a ∈ values, ∀ b ∈ values, constantCase a = constantCase b → a = b
    let admitted := job.settings.enumCollision = .reject → injective
    (compileEnumeration job shape).Ends (ledger, sink) fun result after =>
      ((∀ artifact, ∃ outcome, (Sink.write artifact sink).1 = .ok outcome) →
        ((∃ e, result = .ok e) ↔ admitted)) ∧
      (admitted → ∃ e, result =
          ((Sink.write (job.artifact e.ident (enumerationSource e)) sink).1.map fun _ => e).mapError
            .emit ∧
        after.2 = (Sink.write (job.artifact e.ident (enumerationSource e)) sink).2) ∧
      (¬admitted → ∃ before second later first, values = before ++ second :: later ∧
        (before.map constantCase).Nodup ∧ first ∈ before ∧
        constantCase first = constantCase second ∧
        result = .error (.model
          (.enumCollision shape.name (constantCase second) first second)) ∧
        after = (ledger, sink)) ∧
      ∀ e, result = .ok e →
        e.constants.Pairwise (fun a b => a.name < b.name) ∧
        (∀ name, (∃ constant ∈ e.constants, constant.name = name) ↔
          ∃ value ∈ values, constantCase value = name) ∧
        (∀ constant ∈ e.constants,
          constant.name = constantCase constant.value ∧ IsKept values constant.value) ∧
        (∀ value, e.contains value = true ↔ IsKept values value) ∧
        (job.settings.enumCollision = .reject →
          ∀ value, e.contains value = true ↔ value ∈ values) := by
  intro injective admitted
  have hadmits : (∃ constants, Plan.constantsOf job.settings.enumCollision shape.name values =
      .ok constants) ↔ admitted := exists_constantsOf_iff_of_nodup hdistinct
  rw [ends_compileEnumeration hkind hnew]
  cases hconstants : Plan.constantsOf job.settings.enumCollision shape.name values with
  | error fault =>
    have hrefused : ¬admitted := by
      rw [← hadmits, hconstants]
      rintro ⟨constants, hok⟩
      cases hok
    obtain ⟨-, before, second, later, first, hvalues, hbefore, hfirst, hsame, rfl⟩ :=
      Plan.collision_of_constantsOf hconstants
    refine ⟨fun _ => by simp [hrefused], fun hadmitted => absurd hadmitted hrefused,
      fun _ => ?_, by simp⟩
    exact ⟨before, second, later, first, hvalues, hbefore, hfirst, hsame, rfl, rfl⟩
  | ok constants =>
    have hadmitted : admitted := hadmits.1 ⟨constants, hconstants⟩
    dsimp only
    rcases hwrite : Sink.write _ sink with ⟨fault | outcome, written⟩
    · refine ⟨fun htakes => ?_, fun _ => ⟨enumerationOf ledger shape constants, ?_⟩,
        fun hrefused => absurd hadmitted hrefused, by simp⟩
      · obtain ⟨outcome, houtcome⟩ := htakes _
        cases (congrArg Prod.fst hwrite).symm.trans houtcome
      · rw [hwrite]
        exact ⟨rfl, rfl⟩
    · refine ⟨fun _ => iff_of_true ⟨_, rfl⟩ hadmitted,
        fun _ => ⟨enumerationOf ledger shape constants, ?_⟩,
        fun hrefused => absurd hadmitted hrefused, fun e he => ?_⟩
      · rw [hwrite]
        exact ⟨rfl, rfl⟩
      · obtain rfl := Except.ok.inj he
        exact constants_of_constantsOf hconstants

/-- An enumeration of which the first two values have one constant. -/
def clash : Shape where
  name := "Clash"
  kind := .enumeration ["us-east-1", "US_EAST_1", "other"]
  locationName := none
  xmlNamespace := none
  timestampFormat := none
  streaming := false

def clashModel : ServiceModel where
  service := ⟨"Places", "1", .json, none, none, none⟩
  shapes := [("Clash", clash)]
  operations := []

/-- The second value is refused, or it takes the place of the first. -/
theorem clash_settled_by_policy :
    ((compileEnumeration ⟨clashModel, {}⟩ clash).Ends (.ofModel clashModel, ({} : Memory))
      fun result after =>
        result = .error (.model (.enumCollision "Clash" "US_EAST_1" "us-east-1" "US_EAST_1")) ∧
        after = (.ofModel clashModel, {})) ∧
    (compileEnumeration ⟨clashModel, { enumCollision := .overwrite }⟩ clash).Ends
      (.ofModel clashModel, ({} : Memory)) fun result _ =>
        ∃ e, result = .ok e ∧ e.contains "US_EAST_1" = true := by
  have hcase : constantCase "us-east-1" = constantCase "US_EAST_1" := by decide +kernel
  constructor
  · refine (collisions_settled_by_policy rfl (by decide) rfl).mono fun result after h => ?_
    have hrefused : ¬(CollisionPolicy.reject = .reject → ∀ a ∈ ["us-east-1", "US_EAST_1", "other"],
        ∀ b ∈ ["us-east-1", "US_EAST_1", "other"], constantCase a = constantCase b → a = b) := by
      intro hadmitted
      have hsame := hadmitted rfl "us-east-1" (by simp) "US_EAST_1" (by simp) hcase
      revert hsame
      decide
    obtain ⟨before, second, later, first, hvalues, hbefore, hfirst, -, hresult, hafter⟩ :=
      h.2.2.1 hrefused
    -- The two values that collide cannot both stand in front of the one that is refused.
    match before, hvalues, hbefore, hfirst with
    | [known], hvalues, _, hfirst =>
      obtain ⟨rfl, rfl, -⟩ : "us-east-1" = known ∧ "US_EAST_1" = second ∧ ["other"] = later := by
        simpa using hvalues
      obtain rfl := List.mem_singleton.1 hfirst
      have hconstant : constantCase "US_EAST_1" = "US_EAST_1" := by decide +kernel
      rw [hconstant] at hresult
      exact ⟨hresult, hafter⟩
    | known :: other :: rest, hvalues, hbefore, _ =>
      obtain ⟨rfl, rfl, -⟩ : "us-east-1" = known ∧ "US_EAST_1" = other ∧ _ := by
        simpa using hvalues
      simp [hcase] at hbefore
  · refine (collisions_settled_by_policy rfl (by decide) rfl).mono fun result after h => ?_
    obtain ⟨htaken, -, -, hdone⟩ := h
    obtain ⟨e, he⟩ := (htaken fun artifact => ⟨.written, rfl⟩).2 fun hreject => by cases hreject
    obtain ⟨-, -, -, hcontains, -⟩ := hdone e he
    have hkept : IsKept ["us-east-1", "US_EAST_1", "other"] "US_EAST_1" :=
      ⟨["us-east-1"], ["other"], rfl, by decide +kernel⟩
    exact ⟨e, he, (hcontains _).2 hkept⟩

end ServiceBindings.Generate
