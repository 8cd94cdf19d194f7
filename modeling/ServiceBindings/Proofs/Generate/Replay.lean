import ServiceBindings.Proofs.Generate.Emission

/-! Runs with one job and different places for their items. A place that takes all items that it is
handed makes no difference to what a run comes to. -/
namespace ServiceBindings.Generate
open Plan (Binding Call Enumeration Layout Target)

/-- All items that a run hands over, in their order. -/
structure Trail where
  items : List Artifact := []

/-- Every item is taken. -/
instance : Sink Trail where
  write artifact trail := (.ok .written, ⟨trail.items ++ [artifact]⟩)

/-- Items on a trail are those that were compiled, each identifier once. -/
def Trail.promise : Promise Trail where
  holds idents trail := (∀ artifact ∈ trail.items, idents artifact.ident) ∧
    (trail.items.map Artifact.ident).Nodup
  mayRefuse := False
  mono himp h := ⟨fun artifact hmem => himp _ (h.1 artifact hmem), h.2⟩
  write_ok {idents trail artifact outcome after} h hnew hwrite := by
    obtain ⟨-, rfl⟩ := Prod.mk.inj hwrite
    refine ⟨fun present hmem => ?_, ?_⟩
    · rcases List.mem_append.1 hmem with hmem | hmem
      · exact .inr (h.1 present hmem)
      · exact .inl (congrArg Artifact.ident (List.mem_singleton.1 hmem))
    · rw [List.map_append, List.map_singleton, ← List.concat_eq_append, List.nodup_concat]
      refine ⟨fun hmem => ?_, h.2⟩
      obtain ⟨present, hpresent, heq⟩ := List.mem_map.1 hmem
      exact hnew (heq ▸ h.1 present hpresent)
  write_error {idents trail artifact fault after} _ _ hwrite := by cases hwrite

variable {σ α β : Type} [Sink σ]

/-- Writes items one after the other, up to the first that is not taken. -/
def writeAll : List Artifact → σ → Except EmitError Unit × σ
  | [], sink => (.ok (), sink)
  | artifact :: rest, sink =>
    match Sink.write artifact sink with
    | (.ok _, sink) => writeAll rest sink
    | (.error fault, sink) => (.error fault, sink)

theorem writeAll_cons_of_ok {artifact : Artifact} {sink next : σ} {outcome : Outcome}
    (h : Sink.write artifact sink = (.ok outcome, next)) (rest : List Artifact) :
    writeAll (artifact :: rest) sink = writeAll rest next := by
  rw [writeAll, h]

theorem writeAll_cons_of_error {artifact : Artifact} {sink next : σ} {fault : EmitError}
    (h : Sink.write artifact sink = (.error fault, next)) (rest : List Artifact) :
    writeAll (artifact :: rest) sink = (.error fault, next) := by
  rw [writeAll, h]

/-- Items that are all taken make way for further ones. -/
theorem writeAll_append_of_ok {items : List Artifact} {sink last : σ}
    (h : writeAll items sink = (.ok (), last)) (more : List Artifact) :
    writeAll (items ++ more) sink = writeAll more last := by
  induction items generalizing sink with
  | nil =>
    obtain ⟨-, rfl⟩ := Prod.mk.inj h
    rfl
  | cons artifact rest ih =>
    rcases hwrite : Sink.write artifact sink with ⟨_ | _, next⟩
    · cases (writeAll_cons_of_error hwrite rest).symm.trans h
    · rw [writeAll_cons_of_ok hwrite] at h
      rw [List.cons_append, writeAll_cons_of_ok hwrite, ih h]

/-- No item is taken behind one that is refused. -/
theorem writeAll_append_of_error {items : List Artifact} {sink last : σ} {fault : EmitError}
    (h : writeAll items sink = (.error fault, last)) (more : List Artifact) :
    writeAll (items ++ more) sink = (.error fault, last) := by
  induction items generalizing sink with
  | nil => cases h
  | cons artifact rest ih =>
    rw [List.cons_append]
    rcases hwrite : Sink.write artifact sink with ⟨_ | _, next⟩
    · rw [writeAll_cons_of_error hwrite] at h ⊢
      exact h
    · rw [writeAll_cons_of_ok hwrite] at h ⊢
      exact ih h

/-- What comes of work when its items go to a place: the same as on a trail if the place takes all
of them, and its first fault if not. -/
inductive Follows (added : List Artifact) (sink : σ) (result : Except CompileError α)
    (ledger : Ledger) : Except CompileError α → Ledger × σ → Prop where
  | taken {last : σ} (h : writeAll added sink = (.ok (), last)) :
    Follows added sink result ledger result (ledger, last)
  | refused {fault : EmitError} {last : σ} {state : Ledger × σ}
    (h : writeAll added sink = (.error fault, last)) :
    Follows added sink result ledger (.error (.emit fault)) state

/-- Work at a place follows the same work on a trail, whose items are all of the job's service. -/
def Replays (job : Job) (work : Work Trail α) (other : Work σ α) : Prop :=
  ∀ ledger trail sink, work.Ends (ledger, trail) fun result after =>
    ∃ added, after.2.items = trail.items ++ added ∧
      (∀ artifact ∈ added, artifact.serviceModule = job.settings.serviceModule) ∧
      other.Ends (ledger, sink) (Follows added sink result after.1)

/-- Work does a step in the ledger alone. -/
def StaysIn {σ : Type} (step : Ledger → Except CompileError α × Ledger) (work : Work σ α) : Prop :=
  ∀ state, work.Ends state fun result after =>
    result = (step state.1).1 ∧ after = ((step state.1).2, state.2)

section
variable {job : Job}

/-- Work in the ledger alone does not depend on the place. -/
theorem replays_of_staysIn (step : Ledger → Except CompileError α × Ledger) {work : Work Trail α}
    {other : Work σ α} (hwork : StaysIn step work) (hother : StaysIn step other) :
    Replays job work other := by
  intro ledger trail sink
  refine (hwork (ledger, trail)).mono fun result after h => ?_
  obtain ⟨rfl, rfl⟩ := h
  refine ⟨[], (List.append_nil trail.items).symm, by simp, (hother (ledger, sink)).mono ?_⟩
  rintro there state ⟨rfl, rfl⟩
  exact .taken rfl

theorem replays_pure (a : α) : Replays job (pure a) (pure a : Work σ α) :=
  replays_of_staysIn (fun ledger => (.ok a, ledger)) (fun _ => ⟨rfl, rfl⟩)
    fun _ => ⟨rfl, rfl⟩

theorem replays_throw (error : CompileError) :
    Replays job (throw error) (throw error : Work σ α) :=
  replays_of_staysIn (fun ledger => (.error error, ledger)) (fun _ => ⟨rfl, rfl⟩)
    fun _ => ⟨rfl, rfl⟩

theorem replays_ofModel (answer : Except ModelError α) :
    Replays job (.ofModel answer) (.ofModel answer : Work σ α) :=
  replays_of_staysIn (fun ledger => (answer.mapError .model, ledger))
    (fun _ => Work.ends_ofModel.2 ⟨rfl, rfl⟩) fun _ => Work.ends_ofModel.2 ⟨rfl, rfl⟩

theorem replays_update (change : Ledger → Ledger) :
    Replays job (.update change) (.update change : Work σ Unit) :=
  replays_of_staysIn (fun ledger => (.ok (), change ledger)) (fun _ => ⟨rfl, rfl⟩)
    fun _ => ⟨rfl, rfl⟩

theorem replays_nameShape (shape : Shape) :
    Replays job (.nameShape shape) (.nameShape shape : Work σ _) :=
  replays_of_staysIn (fun ledger =>
      (.ok (ledger.names.shape shape).1, { ledger with names := (ledger.names.shape shape).2 }))
    (fun _ => Work.ends_nameShape.2 ⟨rfl, rfl⟩) fun _ => Work.ends_nameShape.2 ⟨rfl, rfl⟩

theorem replays_nameOperation (name : String) :
    Replays job (.nameOperation name) (.nameOperation name : Work σ _) :=
  replays_of_staysIn (fun ledger =>
      (.ok (ledger.names.operation name).1,
        { ledger with names := (ledger.names.operation name).2 }))
    (fun _ => Work.ends_nameOperation.2 ⟨rfl, rfl⟩) fun _ => Work.ends_nameOperation.2 ⟨rfl, rfl⟩

theorem staysIn_lookUp {σ : Type} (table : Ledger → Fields α) (name : String) :
    StaysIn (σ := σ) (fun ledger => match Fields.get? (table ledger) name with
      | some found => (.ok (some found), { ledger with hits := ledger.hits + 1 })
      | none => (.ok none, ledger)) (.lookUp table name) := by
  intro state
  rw [Work.ends_lookUp]
  cases h : Fields.get? (table state.1) name <;> simp [h]

theorem replays_lookUp (table : Ledger → Fields α) (name : String) :
    Replays job (.lookUp table name) (.lookUp table name : Work σ (Option α)) :=
  replays_of_staysIn _ (staysIn_lookUp table name) (staysIn_lookUp table name)

/-- An item that is handed over goes onto the trail, and the place takes it or not. -/
theorem replays_emit {artifact : Artifact}
    (hservice : artifact.serviceModule = job.settings.serviceModule) :
    Replays job (.emit artifact) (.emit artifact : Work σ Unit) := by
  intro ledger trail sink
  rw [Work.ends_emit]
  refine ⟨[artifact], rfl, fun other hmem => List.mem_singleton.1 hmem ▸ hservice, ?_⟩
  rw [Work.ends_emit]
  rcases hwrite : Sink.write artifact sink with ⟨fault | outcome, next⟩
  · exact .refused (writeAll_cons_of_error hwrite [])
  · exact .taken (writeAll_cons_of_ok hwrite [])

theorem replays_bind {work : Work Trail α} {other : Work σ α} {next : α → Work Trail β}
    {more : α → Work σ β} (hwork : Replays job work other)
    (hnext : ∀ a, Replays job (next a) (more a)) :
    Replays job (work >>= next) (other >>= more) := by
  intro ledger trail sink
  rw [Work.ends_bind]
  refine (hwork ledger trail sink).mono fun result after h => ?_
  obtain ⟨added, hadded, hservice, hother⟩ := h
  cases result with
  | error error =>
    refine ⟨added, hadded, hservice, Work.ends_bind.2 (hother.mono fun there state h => ?_)⟩
    cases h with
    | taken hwrite => exact .taken hwrite
    | refused hwrite => exact .refused hwrite
  | ok a =>
    -- What comes next finds the place as these items leave it.
    refine (hnext a after.1 after.2 (writeAll added sink).2).mono fun result' after' h' => ?_
    obtain ⟨further, hfurther, hservice', hmore⟩ := h'
    refine ⟨added ++ further, by rw [hfurther, hadded, List.append_assoc], fun artifact hmem =>
      (List.mem_append.1 hmem).elim (hservice artifact) (hservice' artifact),
      Work.ends_bind.2 (hother.mono fun there state h => ?_)⟩
    cases h with
    | refused hwrite => exact .refused (writeAll_append_of_error hwrite further)
    | taken hwrite =>
      rw [hwrite] at hmore
      have happend := writeAll_append_of_ok hwrite further
      refine hmore.mono fun there' state' h => ?_
      cases h with
      | taken hwrite' => exact .taken (happend.trans hwrite')
      | refused hwrite' => exact .refused (happend.trans hwrite')

theorem replays_inside {name : String} {work : Work Trail α} {other : Work σ α}
    (h : Replays job work other) :
    Replays job (.inside name work) (.inside name other) := by
  intro ledger trail sink
  rw [Work.ends_inside]
  by_cases hmem : name ∈ ledger.visiting
  · rw [if_pos hmem]
    refine ⟨[], (List.append_nil trail.items).symm, by simp, ?_⟩
    rw [Work.ends_inside, if_pos hmem]
    exact .taken rfl
  · rw [if_neg hmem]
    refine (h _ trail sink).mono fun result after h => ?_
    obtain ⟨added, hadded, hservice, hother⟩ := h
    refine ⟨added, hadded, hservice, ?_⟩
    rw [Work.ends_inside, if_neg hmem]
    refine hother.mono fun there state h => ?_
    cases h with
    | taken hwrite => exact .taken hwrite
    | refused hwrite => exact .refused hwrite

theorem replays_compileEnumeration (shape : Shape) :
    Replays job (compileEnumeration job shape) (compileEnumeration job shape : Work σ _) := by
  unfold compileEnumeration
  cases shape.kind with
  | enumeration values =>
    refine replays_bind (replays_lookUp _ _) fun found => ?_
    cases found with
    | some found => exact replays_pure found
    | none =>
      refine replays_bind (replays_ofModel _) fun constants => ?_
      refine replays_bind (replays_nameShape shape) fun ident => ?_
      exact replays_bind (replays_emit rfl) fun _ =>
        replays_bind (replays_update _) fun _ => replays_pure _
  | _ => exact replays_throw _

/-- A step follows the same step on a trail, whatever shape it compiles. -/
def StepReplays (job : Job) (step : Shape → Option Time.Format → Bool → Work Trail Target)
    (other : Shape → Option Time.Format → Bool → Work σ Target) : Prop :=
  ∀ shape format flattened, Replays job (step shape format flattened) (other shape format flattened)

section
variable {step : Shape → Option Time.Format → Bool → Work Trail Target}
  {other : Shape → Option Time.Format → Bool → Work σ Target}

theorem replays_compileMembers (h : StepReplays job step other) (members : List Member) :
    Replays job (compileMembers job step members) (compileMembers job other members) := by
  induction members with
  | nil => exact replays_pure _
  | cons member rest ih =>
    rw [compileMembers, compileMembers]
    refine replays_bind (replays_ofModel _) fun shape => ?_
    exact replays_bind (h shape _ _) fun target => replays_bind ih fun others => replays_pure _

theorem replays_compileStructureWith (h : StepReplays job step other) (name : String) :
    Replays job (compileStructureWith job step name) (compileStructureWith job other name) := by
  unfold compileStructureWith
  refine replays_bind (replays_lookUp _ _) fun found => ?_
  cases found with
  | some found => exact replays_pure found
  | none =>
    refine replays_bind (replays_ofModel _) fun shape => ?_
    refine replays_bind (replays_ofModel _) fun described => ?_
    refine replays_bind (replays_inside ?_) fun layout => ?_
    · refine replays_bind (replays_nameShape shape) fun ident => ?_
      exact replays_bind (replays_compileMembers h described.members) fun members => replays_pure _
    · exact replays_bind (replays_emit rfl) fun _ =>
        replays_bind (replays_update _) fun _ => replays_pure _

theorem replays_compileLevel (h : StepReplays job step other) :
    StepReplays job (compileLevel job step) (compileLevel job other) := by
  intro shape format flattened
  unfold compileLevel
  cases shape.kind with
  | scalar kind => exact replays_pure _
  | enumeration values =>
    exact replays_bind (replays_compileEnumeration shape) fun e => replays_pure _
  | «structure» s =>
    exact replays_bind (replays_compileStructureWith h shape.name) fun layout => replays_pure _
  | list item listFlattened =>
    refine replays_bind (replays_inside ?_) fun itemTarget => replays_pure _
    exact replays_bind (replays_ofModel _) fun found => h found none false
  | map key value mapFlattened =>
    refine replays_bind (replays_inside ?_) fun targets => replays_pure _
    refine replays_bind (replays_ofModel _) fun keyShape => ?_
    refine replays_bind (h keyShape none false) fun keyTarget => ?_
    refine replays_bind (replays_ofModel _) fun valueShape => ?_
    exact replays_bind (h valueShape none false) fun valueTarget => replays_pure _

end

theorem replays_compileTarget (fuel : Nat) :
    StepReplays job (compileTarget job fuel) (compileTarget (σ := σ) job fuel) :=
  compileTarget_rel (fun _ => replays_throw _) (fun _ _ => replays_compileLevel) fuel

theorem replays_compileStructure (name : String) :
    Replays job (compileStructure job name) (compileStructure job name : Work σ Layout) :=
  replays_compileStructureWith (replays_compileTarget _) name

theorem replays_compileCall (job : Job) (name : String) :
    Replays job (compileCall job name) (compileCall job name : Work σ Call) := by
  unfold compileCall
  refine replays_bind (replays_lookUp _ _) fun found => ?_
  cases found with
  | some found => exact replays_pure found
  | none =>
    refine replays_bind (replays_ofModel _) fun operation => ?_
    refine replays_bind (replays_compileStructure operation.input) fun input => ?_
    have houtput : Replays job (operation.output.mapM (compileStructure job))
        (operation.output.mapM (compileStructure job) : Work σ _) := by
      cases operation.output with
      | none => exact replays_pure none
      | some output =>
        rw [Option.mapM_some, Option.mapM_some, map_eq_pure_bind, map_eq_pure_bind]
        exact replays_bind (replays_compileStructure output) fun layout => replays_pure _
    refine replays_bind houtput fun output => ?_
    refine replays_bind (replays_ofModel _) fun template => ?_
    refine replays_bind (replays_ofModel _) fun _ => ?_
    refine replays_bind (replays_nameOperation name) fun ident => ?_
    exact replays_bind (replays_emit rfl) fun _ =>
      replays_bind (replays_update _) fun _ => replays_pure _

end

namespace Run

/-- What comes of a run over operations when its items go to a place: the same as on a trail if the
place takes all of them, and else an operation fails with the first fault of the place. -/
inductive FollowsAll (added : List Artifact) (sink : σ) (report : Report) (run : Run Trail) :
    Report → Run σ → Prop where
  | taken {last : σ} (h : writeAll added sink = (.ok (), last)) :
    FollowsAll added sink report run report ⟨run.job, run.ledger, last⟩
  | refused {fault : EmitError} {last : σ} {there : Report} {left : Run σ} {name : String}
    (h : writeAll added sink = (.error fault, last)) (hmem : (name, .emit fault) ∈ there.failures) :
    FollowsAll added sink report run there left

theorem mem_failures_enterResult {name other : String} {result : Except CompileError Call}
    {report : Report} {error : CompileError} (h : (other, error) ∈ report.failures) :
    (other, error) ∈ (enterResult name result report).failures := by
  cases result with
  | ok call => exact h
  | error fault => exact List.mem_cons_of_mem _ h

/-- Items of one more operation before the others are taken, and so its result is the same. -/
theorem FollowsAll.cons {added further : List Artifact} {sink next : σ} {report there : Report}
    {run : Run Trail} {left : Run σ} (hwrite : writeAll added sink = (.ok (), next))
    (h : FollowsAll further next report run there left) (name : String)
    (result : Except CompileError Call) :
    FollowsAll (added ++ further) sink (enterResult name result report) run
      (enterResult name result there) left := by
  have happend := writeAll_append_of_ok hwrite further
  cases h with
  | taken hrest => exact .taken (happend.trans hrest)
  | refused hrest hmem =>
    exact .refused (happend.trans hrest) (mem_failures_enterResult hmem)

theorem compileAll_follows (run : Run Trail) (other : Run σ) (hjob : other.job = run.job)
    (hledger : other.ledger = run.ledger) (names : List String) :
    ∃ added, (run.compileAll names).2.sink.items = run.sink.items ++ added ∧
      (∀ artifact ∈ added, artifact.serviceModule = run.job.settings.serviceModule) ∧
      FollowsAll added other.sink (run.compileAll names).1 (run.compileAll names).2
        (other.compileAll names).1 (other.compileAll names).2 := by
  induction names generalizing run other with
  | nil =>
    obtain ⟨job, ledger, sink⟩ := other
    subst hjob hledger
    exact ⟨[], (List.append_nil run.sink.items).symm, by simp, .taken rfl⟩
  | cons name rest ih =>
    obtain ⟨job, ledger, sink⟩ := other
    subst hjob hledger
    obtain ⟨added, hadded, hservice, hfollows⟩ :=
      replays_compileCall run.job name run.ledger run.sink sink
    obtain ⟨further, hfurther, hservice', hrest⟩ :=
      ih (run.compile name).2 ⟨run.job, (run.compile name).2.ledger, (writeAll added sink).2⟩ rfl
        rfl
    have hadded : (run.compile name).2.sink.items = run.sink.items ++ added := hadded
    have hfollows : Follows added sink (run.compile name).1 (run.compile name).2.ledger
        (compile ⟨run.job, run.ledger, sink⟩ name).1
        ((compile ⟨run.job, run.ledger, sink⟩ name).2.ledger,
          (compile ⟨run.job, run.ledger, sink⟩ name).2.sink) := hfollows
    refine ⟨added ++ further, by rw [compileAll_cons, hfurther, hadded, List.append_assoc],
      fun artifact hmem =>
        (List.mem_append.1 hmem).elim (hservice artifact) (hservice' artifact), ?_⟩
    rw [compileAll_cons, compileAll_cons]
    generalize hthere : compile ⟨run.job, run.ledger, sink⟩ name = there at hfollows
    obtain ⟨result, job, ledger, next⟩ := there
    obtain rfl : run.job = job := congrArg (fun there => there.2.job) hthere
    cases hfollows with
    | taken hwrite =>
      rw [hwrite] at hrest
      exact hrest.cons hwrite name _
    | refused hwrite =>
      exact .refused (writeAll_append_of_error hwrite further) List.mem_cons_self

def itemsOf (job : Job) : List Artifact :=
  (start job ({} : Trail)).all.2.sink.items

theorem all_follows (job : Job) (sink : σ) :
    FollowsAll (itemsOf job) sink (start job ({} : Trail)).all.1 (start job ({} : Trail)).all.2
      (start job sink).all.1 (start job sink).all.2 := by
  obtain ⟨added, hadded, -, hfollows⟩ :=
    compileAll_follows (start job ({} : Trail)) (start job sink) rfl rfl
      (job.model.operations.names.mergeSort fun a b => a ≤ b)
  obtain rfl : itemsOf job = added := hadded
  exact hfollows

/-- A run whose items are all taken by a place comes to what it comes to in memory, and leaves the
place as these items do. -/
theorem all_of_writeAll {job : Job} {sink last : σ}
    (h : writeAll (itemsOf job) sink = (.ok (), last)) :
    (start job sink).all = ((start job ({} : Trail)).all.1,
      ⟨(start job ({} : Trail)).all.2.job, (start job ({} : Trail)).all.2.ledger, last⟩) := by
  have hfollows := all_follows job sink
  generalize (start job sink).all = there at hfollows ⊢
  obtain ⟨report, run⟩ := there
  cases hfollows with
  | taken hwrite =>
    obtain ⟨-, rfl⟩ := Prod.mk.inj (h.symm.trans hwrite)
    rfl
  | refused hwrite => cases h.symm.trans hwrite

/-- A run fails with the first fault of a place. -/
theorem exists_failure_of_writeAll {job : Job} {sink last : σ} {fault : EmitError}
    (h : writeAll (itemsOf job) sink = (.error fault, last)) :
    ∃ name, (name, .emit fault) ∈ (start job sink).all.1.failures := by
  have hfollows := all_follows job sink
  generalize (start job sink).all = there at hfollows ⊢
  obtain ⟨report, run⟩ := there
  cases hfollows with
  | taken hwrite => cases h.symm.trans hwrite
  | refused hwrite hmem =>
    obtain ⟨heq, -⟩ := Prod.mk.inj (h.symm.trans hwrite)
    exact ⟨_, Except.error.inj heq ▸ hmem⟩

theorem serviceModule_of_mem_itemsOf {job : Job} {artifact : Artifact}
    (h : artifact ∈ itemsOf job) : artifact.serviceModule = job.settings.serviceModule := by
  obtain ⟨added, hadded, hservice, -⟩ :=
    compileAll_follows (start job ({} : Trail)) (start job ({} : Trail)) rfl rfl
      (job.model.operations.names.mergeSort fun a b => a ≤ b)
  obtain rfl : itemsOf job = added := hadded
  exact hservice artifact h

/-- No two items of a whole run share a module and a file. -/
theorem pairwise_file_itemsOf {job : Job} (hmodel : job.model.Loaded) :
    (itemsOf job).Pairwise fun a b => a.ident.file ≠ b.ident.file := by
  have hfresh : (start job ({} : Trail)).IsSound Trail.promise :=
    isSound_start job ⟨fun artifact hmem => by simp at hmem, List.nodup_nil⟩
  have hrun := (hfresh.compileAll hmodel.wellFormed
    (job.model.operations.names.mergeSort fun a b => a ≤ b)).1
  obtain ⟨hitems, hnodup⟩ := hrun.sound.sink
  exact (List.pairwise_map.1 hnodup).imp_of_mem fun ha hb hne heq =>
    hne (hrun.sound.ident_eq_of_file (hitems _ ha) (hitems _ hb) heq)

end Run

/-- Memory takes items with different identifiers as they come. -/
theorem writeAll_memory {items : List Artifact} (memory : Memory)
    (h : ((memory.artifacts ++ items).map Artifact.ident).Nodup) :
    ∃ last, writeAll items memory = (.ok (), last) ∧
      last.artifacts = memory.artifacts ++ items := by
  induction items generalizing memory with
  | nil => exact ⟨memory, rfl, (List.append_nil _).symm⟩
  | cons artifact rest ih =>
    have hnew : ∀ present ∈ memory.artifacts, present.ident ≠ artifact.ident := by
      intro present hmem heq
      rw [List.map_append, List.map_cons] at h
      exact List.disjoint_of_nodup_append h (List.mem_map_of_mem hmem) (heq ▸ List.mem_cons_self)
    rw [List.append_cons] at h
    obtain ⟨last, hwrite, hlast⟩ := ih (memory.write artifact).2 (by
      rw [Memory.write_of_new hnew]
      exact h)
    rw [Memory.write_of_new hnew] at hwrite hlast
    exact ⟨last, (writeAll_cons_of_ok (Memory.write_of_new hnew) rest).trans hwrite, by
      rw [hlast, ← List.append_cons]⟩

namespace Run

/-- A run with its items in memory keeps all that it hands over. -/
theorem all_memory {job : Job} (hmodel : job.model.Loaded) :
    (start job ({} : Memory)).all.1 = (start job ({} : Trail)).all.1 ∧
      (start job ({} : Memory)).all.2.sink.artifacts = itemsOf job := by
  have hnodup : (itemsOf job).Pairwise fun a b => a.ident ≠ b.ident :=
    (pairwise_file_itemsOf hmodel).imp fun hne heq => hne (congrArg Naming.Identifier.file heq)
  obtain ⟨last, hwrite, hlast⟩ := writeAll_memory {} (List.pairwise_map.2 hnodup)
  rw [all_of_writeAll hwrite]
  exact ⟨rfl, hlast⟩

end Run
end ServiceBindings.Generate
