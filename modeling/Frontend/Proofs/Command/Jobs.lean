import Frontend.Proofs.Command.Modules
import Frontend.Proofs.Command.Outcomes

/-!
# Lists of modules

The modules of a list are parsed by jobs that run side by side. They are started in order, and only
so many of them run at a time; apart from that, any running job may make the next move. It adds a
file to its unit, or it parses the unit and leaves what is wrong with it in the slot of its module.

What a job will leave there is settled before it starts, and no move of any job changes it. When all
jobs have finished, the slots therefore hold what parsing the modules one after the other finds, and
the report that is made from them says about each module what checking it alone says.
-/

namespace Frontend

open Frontend.Action

/-! ### Jobs -/

/-- A job that parses the source of a project. -/
inductive Job
  /-- The job has not been started. -/
  | waiting (p : Project)
  /-- Some files have been gathered in a unit, and some are left. -/
  | running (prec : Precedence) (left : List Text) (u : CompilationUnit)
  /-- The job has left what is wrong with the source in its slot. -/
  | finished (result : Option Failure)

namespace Job

variable {t : FileTree}

/-- The job is neither waiting nor finished. -/
def isRunning : Job → Bool
  | .running .. => true
  | _           => false

/-- The job has not been started. -/
def isWaiting : Job → Bool
  | .waiting _ => true
  | _          => false

/-- The slot of a job, which is empty until the job has finished. -/
def slot : Job → Option Failure
  | .finished result => result
  | _                => none

/-- A job that has just been started. -/
def start (p : Project) : Job := .running p.precedence p.source.files {}

/-- A running job after its next move. -/
def move (t : FileTree) (prec : Precedence) : List Text → CompilationUnit → Job
  | [],           u =>
    match u.parse prec with
    | .ok _    => .finished none
    | .error e => .finished (some e)
  | path :: left, u =>
    match u.addInput ⟨path, t.read path⟩ with
    | (u, none)   => .running prec left u
    | (_, some e) => .finished (some e)

/-- What a job leaves in its slot when nothing comes in between. -/
def outcome (t : FileTree) : Job → Option Failure
  | .waiting p            => Command.failureOf t p
  | .running prec left u  =>
    match CompilationUnit.addFiles t left u with
    | (_, some e) => some e
    | (u, none)   => (move t prec [] u).slot
  | .finished result      => result

/-- An upper bound for the number of moves that are left, the start being one of them. -/
def movesLeft : Job → Nat
  | .waiting p        => p.source.files.length + 2
  | .running _ left _ => left.length + 1
  | .finished _       => 0

lemma outcome_start (t : FileTree) (p : Project) :
    (start p).outcome t = (waiting p).outcome t := by
  rw [start, outcome, outcome, Command.failureOf, SourceModule.parse]
  generalize CompilationUnit.addFiles t p.source.files {} = added
  obtain ⟨u, r⟩ := added
  cases r with
  | some e => rfl
  | none =>
    simp only [move]
    cases u.parse p.precedence <;> rfl

/-- A move does not change the outcome. -/
lemma outcome_move (t : FileTree) (prec : Precedence) (left : List Text) (u : CompilationUnit) :
    (move t prec left u).outcome t = (running prec left u).outcome t := by
  cases left with
  | nil =>
    simp only [outcome, move, CompilationUnit.addFiles]
    cases u.parse prec <;> rfl
  | cons path left =>
    simp only [outcome, move, CompilationUnit.addFiles]
    generalize u.addInput ⟨path, t.read path⟩ = added
    obtain ⟨u', r⟩ := added
    cases r <;> rfl

lemma movesLeft_move_lt (t : FileTree) (prec : Precedence) (left : List Text)
    (u : CompilationUnit) : (move t prec left u).movesLeft < (running prec left u).movesLeft := by
  rw [move.eq_def]
  split
  · split <;> simp [movesLeft]
  · split <;> simp [movesLeft]

end Job

/-! ### Moves on a board -/

/-- One of the jobs on a board makes a move, or the first one that waits is started because there is
room for another. -/
inductive Moves (t : FileTree) (room : Nat) : List Job → List Job → Prop
  | start (before after : List Job) (p : Project) (hfirst : ∀ j ∈ before, j.isWaiting = false)
      (hroom : (before ++ .waiting p :: after).countP Job.isRunning < room) :
      Moves t room (before ++ .waiting p :: after) (before ++ Job.start p :: after)
  | move (before after : List Job) (prec : Precedence) (left : List Text) (u : CompilationUnit) :
      Moves t room (before ++ .running prec left u :: after)
        (before ++ Job.move t prec left u :: after)

/-- A board comes from another by some moves. -/
def Reaches (t : FileTree) (room : Nat) : List Job → List Job → Prop :=
  Relation.ReflTransGen (Moves t room)

/-- All jobs on a board have finished. -/
def AllFinished (board : List Job) : Prop := ∀ j ∈ board, ∃ result, j = .finished result

section

variable {t : FileTree} {room : Nat} {board board' : List Job}

lemma Moves.outcomes (h : Moves t room board board') :
    board'.map (Job.outcome t) = board.map (Job.outcome t) := by
  cases h with
  | start before after p => simp only [List.map_append, List.map_cons, Job.outcome_start]
  | move before after prec left u => simp only [List.map_append, List.map_cons, Job.outcome_move]

/-- No moves change the outcomes. -/
lemma Reaches.outcomes (h : Reaches t room board board') :
    board'.map (Job.outcome t) = board.map (Job.outcome t) := by
  induction h with
  | refl => rfl
  | tail _ hmove ih => rw [hmove.outcomes, ih]

lemma AllFinished.slots (h : AllFinished board) (t : FileTree) :
    board.map Job.slot = board.map (Job.outcome t) := by
  refine List.map_congr_left fun j hj => ?_
  obtain ⟨result, rfl⟩ := h j hj
  rfl

/-- The slots of finished jobs hold what parsing one module after the other finds, whatever the
order of the moves was. -/
theorem Reaches.slots {projects : List Project}
    (h : Reaches t room (projects.map .waiting) board) (hf : AllFinished board) :
    board.map Job.slot = projects.map (Command.failureOf t) := by
  rw [hf.slots t, h.outcomes, List.map_map]
  rfl

/-! ### Coming to an end -/

/-- A running job can finish while all others stand still. -/
lemma reaches_finished (t : FileTree) (room : Nat) (before after : List Job) (prec : Precedence)
    (left : List Text) (u : CompilationUnit) :
    Reaches t room (before ++ .running prec left u :: after)
      (before ++ .finished ((Job.running prec left u).outcome t) :: after) := by
  rw [← Job.outcome_move]
  refine .head (.move before after prec left u) ?_
  induction left generalizing u with
  | nil =>
    rw [Job.move]
    cases u.parse prec <;> exact .refl
  | cons path left ih =>
    rw [Job.move]
    generalize u.addInput ⟨path, t.read path⟩ = added
    obtain ⟨u', r⟩ := added
    cases r with
    | some e => exact .refl
    | none =>
      simp only
      rw [← Job.outcome_move]
      exact .head (.move before after prec left u') (ih u')

/-- The moves that are left on a board. -/
def movesLeft (board : List Job) : Nat := (board.map Job.movesLeft).sum

lemma Moves.movesLeft_lt (h : Moves t room board board') : movesLeft board' < movesLeft board := by
  cases h with
  | start before after p =>
    simp [movesLeft, Job.start, Job.movesLeft]
  | move before after prec left u =>
    have hlt := Job.movesLeft_move_lt t prec left u
    simp only [movesLeft, List.map_append, List.map_cons, List.sum_append, List.sum_cons]
    omega

/-- While jobs have not finished, one of them can make a move or be started. -/
lemma exists_moves (hroom : 0 < room) (h : ¬AllFinished board) :
    ∃ board', Moves t room board board' := by
  cases hr : board.find? Job.isRunning with
  | some j =>
    obtain ⟨hj, before, after, rfl, -⟩ := List.find?_eq_some_iff_append.1 hr
    cases j with
    | running prec left u => exact ⟨_, .move before after prec left u⟩
    | waiting => cases hj
    | finished => cases hj
  | none =>
    -- none runs, so there is room to start one that waits
    have hidle : board.countP Job.isRunning = 0 := by
      rw [List.countP_eq_zero]
      exact List.find?_eq_none.1 hr
    cases hw : board.find? Job.isWaiting with
    | some j =>
      obtain ⟨hj, before, after, rfl, hfirst⟩ := List.find?_eq_some_iff_append.1 hw
      cases j with
      | waiting p =>
        refine ⟨_, .start before after p (by simpa using hfirst) ?_⟩
        rwa [hidle]
      | running => cases hj
      | finished => cases hj
    | none =>
      -- none waits either, so all have finished
      refine absurd (fun j hj => ?_) h
      cases j with
      | finished result => exact ⟨result, rfl⟩
      | running => exact absurd rfl (List.find?_eq_none.1 hr _ hj)
      | waiting => exact absurd rfl (List.find?_eq_none.1 hw _ hj)

/-- Wherever the moves have led, more of them lead to a board where all jobs have finished. -/
lemma exists_allFinished (hroom : 0 < room) (board : List Job) :
    ∃ last, Reaches t room board last ∧ AllFinished last := by
  by_cases h : AllFinished board
  · exact ⟨board, .refl, h⟩
  · obtain ⟨board', hmove⟩ := exists_moves (t := t) hroom h
    obtain ⟨last, hlast, hf⟩ := exists_allFinished hroom board'
    exact ⟨last, .head hmove hlast, hf⟩
termination_by movesLeft board
decreasing_by exact hmove.movesLeft_lt

end

namespace Command

variable {o : Options} {t : FileTree} {path d : Text} {config : Config} {dirs : List Text}
  {p : Project} {projects : List Project} {α : Type}

/-! ### Verdicts -/

/-- What the command that checks a module says about the one in a directory, if it finds something
wrong, and the line about it in a list. -/
inductive Verdict (o : Options) (t : FileTree) (d : Text) : Option Failure → Text → Prop
  | ok {config : Config} {p : Project} (h : Loads o t d config p)
      (hcheck : ∀ signals, (run o t signals (.check d)).Finishes none []) :
      Verdict o t d none (Project.okLine p.source.dir)
  | error {e : Failure} (hcheck : ∀ signals, (run o t signals (.check d)).Fails e []) :
      Verdict o t d (some e) e.message

lemma verdict_of_loads (h : Loads o t d config p) :
    Verdict o t d (failureOf t p) (entryOf p (failureOf t p)) := by
  rw [failureOf]
  cases hm : (p.source.parse t p.precedence).2 with
  | ok m => exact .ok h (finishes_check h hm)
  | error e => exact .error (fails_check h hm)

/-- There is only one verdict about a directory. -/
lemma Verdict.unique {r r' : Option Failure} {s s' : Text} (h : Verdict o t d r s)
    (h' : Verdict o t d r' s') : r = r' ∧ s = s' := by
  cases h with
  | ok h hcheck =>
    cases h' with
    | ok h' _ =>
      obtain ⟨rfl, rfl⟩ := h.unique h'
      exact ⟨rfl, rfl⟩
    | error hcheck' => exact absurd ((hcheck [] {}).1.symm.trans (hcheck' [] {}).1) (by simp)
  | error hcheck =>
    cases h' with
    | ok _ hcheck' => exact absurd ((hcheck [] {}).1.symm.trans (hcheck' [] {}).1) (by simp)
    | error hcheck' =>
      obtain rfl := Except.error.inj ((hcheck [] {}).1.symm.trans (hcheck' [] {}).1)
      exact ⟨rfl, rfl⟩

lemma verdicts_unique {verdicts verdicts' : List (Option Failure × Text)}
    (h : List.Forall₂ (fun d v => Verdict o t d v.1 v.2) dirs verdicts)
    (h' : List.Forall₂ (fun d v => Verdict o t d v.1 v.2) dirs verdicts') :
    verdicts = verdicts' := by
  induction h generalizing verdicts' with
  | nil => cases h'; rfl
  | cons hv _ ih =>
    cases h' with
    | cons hv' h' => rw [Prod.ext_iff.2 (hv.unique hv'), ih h']

/-- An action prints the line of each verdict. It fails if something is wrong, and says how many
verdicts of how many are such. -/
def Reports (a : Action α) (x : α) (verdicts : List (Option Failure × Text)) : Prop :=
  let lines := verdicts.flatMap fun v => v.2 ++ [0x0A]
  let wrong := verdicts.countP fun v => v.1.isSome
  (wrong = 0 → a.Finishes x lines) ∧
    (wrong ≠ 0 → a.Fails (.plain (Text.ofNat wrong ++ Text.ofString " of " ++
      Text.ofNat verdicts.length ++ Text.ofString " modules failed")) lines)

section

variable {β : Type} {a : Action α} {f : α → Action β} {x : α} {y : β}
  {verdicts : List (Option Failure × Text)}

lemma Reports.after (ha : a.Finishes x []) (h : Reports (f x) y verdicts) :
    Reports (a >>= f) y verdicts := by
  refine ⟨fun hw => ?_, fun hw => ?_⟩
  · exact ha.bind (h.1 hw)
  · exact ha.bind_fails (h.2 hw)

lemma Reports.then_pure (h : Reports a x verdicts) (y : β) :
    Reports (a >>= fun _ => pure y) y verdicts := by
  refine ⟨fun hw => ?_, fun hw => ?_⟩
  · exact (h.1 hw).then_pure y
  · exact (h.2 hw).bind

end

lemma reports_reportOn (results : List (Project × Option Failure)) :
    Reports (reportOn results) () (results.map fun r => (r.2, entryOf r.1 r.2)) := by
  have hwrong : (results.map fun r => (r.2, entryOf r.1 r.2)).countP (fun v => v.1.isSome) =
      (results.filter fun r => r.2.isSome).length := by
    rw [List.countP_map, List.countP_eq_length_filter]
    rfl
  simp only [Reports, hwrong, List.length_map, List.flatMap_map, reportOn]
  generalize results.filter (fun r => r.2.isSome) = failed
  cases failed with
  | nil =>
    refine ⟨fun _ => ?_, fun hw => absurd rfl hw⟩
    exact Finishes.of_print (finishes_pure ())
  | cons r failed =>
    refine ⟨fun hw => absurd hw (by simp), fun _ => ?_⟩
    exact Fails.of_print (fails_ofExcept _)

/-! ### Lists -/

/-- The projects that are loaded from some directories. -/
def LoadAll (o : Options) (t : FileTree) : List Text → List Project → Prop :=
  List.Forall₂ fun d p => ∃ config, Loads o t d config p

lemma exists_loadAll (h : ∀ d ∈ dirs, ∃ config p, Loads o t d config p) :
    ∃ projects, LoadAll o t dirs projects := by
  induction dirs with
  | nil => exact ⟨[], .nil⟩
  | cons d dirs ih =>
    rw [List.forall_mem_cons] at h
    obtain ⟨config, p, hp⟩ := h.1
    obtain ⟨projects, hprojects⟩ := ih h.2
    exact ⟨p :: projects, .cons ⟨config, hp⟩ hprojects⟩

lemma LoadAll.finishes (h : LoadAll o t dirs projects) :
    (dirs.mapM (Project.load o t)).Finishes projects [] := by
  induction h with
  | nil => exact finishes_pure []
  | cons hd _ ih =>
    obtain ⟨config, hd⟩ := hd
    rw [List.mapM_cons]
    refine (Project.finishes_load hd).bind ?_
    rw [← List.append_nil []]
    exact ih.bind (finishes_pure _)

lemma LoadAll.verdicts (h : LoadAll o t dirs projects) :
    List.Forall₂ (fun d v => Verdict o t d v.1 v.2) dirs
      (projects.map fun p => (failureOf t p, entryOf p (failureOf t p))) := by
  rw [List.forall₂_map_right_iff]
  exact h.imp fun d p hd => hd.elim fun _ hp => verdict_of_loads hp

/-- The directories of modules come in order. -/
lemma pairwise_dirs (h : SourceModule.dirs t path config.ext = .ok dirs) :
    dirs.Pairwise (· ≤ ·) := by
  rw [SourceModule.dirs] at h
  cases hs : t.stat path with
  | error e => simp [hs] at h
  | ok e =>
    simp only [hs, Except.ok.injEq] at h
    subst h
    cases e with
    | file => exact .nil
    | directory es =>
      rw [SourceModule.dirsBeneath]
      exact Text.pairwise_sorted _

section

variable (hc : o.configFor t path = .ok config)
  (hd : SourceModule.dirs t path config.ext = .ok dirs) (h : LoadAll o t dirs projects)
include hc hd h

lemma finishes_loadModules : (loadModules o t path).Finishes projects [] := by
  rw [loadModules, hc]
  refine (finishes_ofExceptWithin _ config).bind ?_
  rw [hd]
  exact (finishes_ofExcept dirs).bind h.finishes

lemma reports_listWith (failures : List Project → List (Option Failure))
    (hf : failures projects = projects.map (failureOf t)) :
    Reports (listWith o t path failures) ()
      (projects.map fun p => (failureOf t p, entryOf p (failureOf t p))) := by
  rw [listWith]
  refine .after (finishes_loadModules hc hd h) ?_
  have hzip : projects.zip (projects.map (failureOf t)) =
      projects.map fun p => (p, failureOf t p) := by
    have hzip := List.zip_map' (f := id) (g := failureOf t) (l := projects)
    rwa [List.map_id] at hzip
  have hreport := reports_reportOn (projects.map fun p => (p, failureOf t p))
  rwa [List.map_map, ← hzip, ← hf] at hreport

lemma reports_list (signals : List (FileTree × Signal)) :
    Reports (run o t signals (.list path)) none
      (projects.map fun p => (failureOf t p, entryOf p (failureOf t p))) :=
  (reports_listWith hc hd h _ rfl).then_pure none

end

/-- A list agrees with the checks of its modules. The directories of modules are in order, and each
has one line, which says what the command that checks a module says about this one; the list fails
if some of the lines tell of errors, and says how many. This is what is reported when the modules
are parsed one after the other, and also when jobs parse them side by side: whatever moves have been
made, all jobs can still finish, and whenever they have, the report is the same. -/
theorem list_reports_checks (room : Nat) (hc : o.configFor t path = .ok config)
    (hd : SourceModule.dirs t path config.ext = .ok dirs)
    (h : ∀ d ∈ dirs, ∃ config p, Loads o t d config p) (hroom : 0 < room) :
    ∃ projects verdicts, (loadModules o t path).Finishes projects [] ∧
      dirs.Pairwise (· ≤ ·) ∧
      List.Forall₂ (fun d v => Verdict o t d v.1 v.2) dirs verdicts ∧
      (∀ signals, Reports (run o t signals (.list path)) none verdicts) ∧
      ∀ board, Reaches t room (projects.map .waiting) board →
        (∃ last, Reaches t room board last ∧ AllFinished last) ∧
        (AllFinished board →
          Reports (listWith o t path fun _ => board.map Job.slot) () verdicts) := by
  obtain ⟨projects, hload⟩ := exists_loadAll h
  refine ⟨projects, _, finishes_loadModules hc hd hload, pairwise_dirs hd, hload.verdicts,
    reports_list hc hd hload, fun board hboard => ?_⟩
  refine ⟨exists_allFinished hroom board, fun hf => ?_⟩
  exact reports_listWith hc hd hload _ (hboard.slots hf)

/-- Two modules, the first with a configuration of its own, and two jobs of which the second one
finishes before the first one has read its file. -/
theorem list_reports_checks_two : ∃ t path p q e,
    t = ((({ workingDir := Text.ofString "/w" } : FileTree).write
      (Text.ofString "/w/a/nilla.toml") (Text.ofString "[precedence]\n\"+\" = 2\n")).write
      (Text.ofString "/w/a/x.nla") (Text.ofString "def f\n 1 + 2\nend\n")).write
      (Text.ofString "/w/b/y.nla") (Text.ofString "def g\n x\nend\n") ∧
    path = Text.ofString "." ∧ p.precedence.of 0x2B = 2 ∧ q.precedence.of 0x2B = 20 ∧
    LoadAll {} t [Text.ofString "a", Text.ofString "b"] [p, q] ∧
    Reaches t 2 [.waiting p, .waiting q] [Job.start p, .finished (some e)] ∧
    (∃ last, Reaches t 2 [Job.start p, .finished (some e)] last ∧ AllFinished last ∧
      (listWith {} t path fun _ => last.map Job.slot).Fails
        (.plain (Text.ofString "1 of 2 modules failed"))
        (Text.ofString "ok /w/a\n/w/b/y.nla:2.2: local variable is not assigned anywhere\n")) ∧
    (run {} t [] (.list path)).Fails (.plain (Text.ofString "1 of 2 modules failed"))
      (Text.ofString "ok /w/a\n/w/b/y.nla:2.2: local variable is not assigned anywhere\n") := by
  obtain ⟨t, ht⟩ : ∃ t, t = ((({ workingDir := Text.ofString "/w" } : FileTree).write
      (Text.ofString "/w/a/nilla.toml") (Text.ofString "[precedence]\n\"+\" = 2\n")).write
      (Text.ofString "/w/a/x.nla") (Text.ofString "def f\n 1 + 2\nend\n")).write
      (Text.ofString "/w/b/y.nla") (Text.ofString "def g\n x\nend\n") := ⟨_, rfl⟩
  obtain ⟨path, hpath⟩ : ∃ path, path = Text.ofString "." := ⟨_, rfl⟩
  obtain ⟨config, hc, hd⟩ : ∃ config, Options.configFor {} t path = .ok config ∧
      SourceModule.dirs t path config.ext = .ok [Text.ofString "a", Text.ofString "b"] := by
    subst ht hpath
    exact ⟨_, by cbv, by cbv⟩
  -- the two modules are loaded and parsed with tables of their own
  obtain ⟨config₁, prec₁, source₁, hc₁, hp₁, hplus₁, hs₁, hdir₁, u₁, hadd₁, m, hm⟩ :
      ∃ config prec source, Options.configFor {} t (Text.ofString "a") = .ok config ∧
        config.table = .ok prec ∧ prec.of 0x2B = 2 ∧
        SourceModule.load t (Text.ofString "a") config.ext = .ok source ∧
        source.dir = Text.ofString "/w/a" ∧
        ∃ u, CompilationUnit.addFiles t source.files {} = (u, none) ∧
          ∃ m, u.parse prec = .ok m := by
    subst ht
    exact ⟨_, _, _, by cbv, by cbv, by cbv, by cbv, by cbv, _, by cbv, _, by rfl⟩
  obtain ⟨config₂, prec₂, source₂, hc₂, hp₂, hplus₂, hs₂, u₂, hadd₂, e, he, hmessage⟩ :
      ∃ config prec source, Options.configFor {} t (Text.ofString "b") = .ok config ∧
        config.table = .ok prec ∧ prec.of 0x2B = 20 ∧
        SourceModule.load t (Text.ofString "b") config.ext = .ok source ∧
        ∃ u, CompilationUnit.addFiles t source.files {} = (u, none) ∧
          ∃ e, u.parse prec = .error e ∧ e.message =
            Text.ofString "/w/b/y.nla:2.2: local variable is not assigned anywhere" := by
    subst ht
    exact ⟨_, _, _, by cbv, by cbv, by cbv, by cbv, _, by cbv, _, by rfl, by cbv⟩
  obtain ⟨p, hp⟩ : ∃ p, p = Project.mk prec₁ source₁ := ⟨_, rfl⟩
  obtain ⟨q, hq⟩ : ∃ q, q = Project.mk prec₂ source₂ := ⟨_, rfl⟩
  have hf₁ : failureOf t p = none := by
    simp only [failureOf, SourceModule.parse, hp, hadd₁, hm]
  have hf₂ : failureOf t q = some e := by
    simp only [failureOf, SourceModule.parse, hq, hadd₂, he]
  have hl₁ : Loads {} t (Text.ofString "a") config₁ p := hp ▸ ⟨hc₁, hp₁, hs₁⟩
  have hl₂ : Loads {} t (Text.ofString "b") config₂ q := hq ▸ ⟨hc₂, hp₂, hs₂⟩
  have hall : LoadAll {} t [Text.ofString "a", Text.ofString "b"] [p, q] :=
    .cons ⟨_, hl₁⟩ (.cons ⟨_, hl₂⟩ .nil)
  obtain ⟨projects, verdicts, hprojects, -, hverdicts, hlist, hboards⟩ :=
    list_reports_checks 2 hc hd
      (by simpa using ⟨⟨_, _, hl₁⟩, ⟨_, _, hl₂⟩⟩) (by decide)
  obtain rfl : projects = [p, q] :=
    Except.ok.inj ((hprojects {}).1.symm.trans ((finishes_loadModules hc hd hall) {}).1)
  obtain rfl := verdicts_unique hverdicts hall.verdicts
  have hpair : [p, q].map (fun p => (failureOf t p, entryOf p (failureOf t p))) =
      [(none, Project.okLine p.source.dir), (some e, e.message)] := by
    simp [hf₁, hf₂, entryOf]
  -- both reports, one after the other and from the jobs, say the same
  have hsays : ∀ {α : Type} {a : Action α} {x : α},
      Reports a x [(none, Project.okLine p.source.dir), (some e, e.message)] →
      a.Fails (.plain (Text.ofString "1 of 2 modules failed"))
        (Text.ofString "ok /w/a\n/w/b/y.nla:2.2: local variable is not assigned anywhere\n") := by
    intro α a x h
    have hfails := h.2 (by simp)
    rw [hmessage, hp, hdir₁] at hfails
    have hcount : Text.ofNat 1 ++ Text.ofString " of " ++ Text.ofNat 2 ++
      Text.ofString " modules failed" = Text.ofString "1 of 2 modules failed" := by cbv
    rw [← hcount]
    exact hfails
  rw [hpair] at hlist hboards
  -- both jobs are started, and the second one runs to its end
  have hmoves : Reaches t 2 [.waiting p, .waiting q] [Job.start p, .finished (some e)] := by
    refine .head (.start [] [.waiting q] p (by simp) Nat.two_pos) ?_
    refine .head (.start [Job.start p] [] q (by simp [Job.start, Job.isWaiting]) Nat.one_lt_two) ?_
    rw [← hf₂]
    have hlast := reaches_finished t 2 [Job.start p] [] q.precedence q.source.files {}
    rwa [← Job.start, Job.outcome_start] at hlast
  obtain ⟨last, hlast, hfinished⟩ := (hboards _ hmoves).1
  have hreport := (hboards last (hmoves.trans hlast)).2 hfinished
  exact ⟨t, path, p, q, e, ht, hpath, hp ▸ hplus₁, hq ▸ hplus₂, hall, hmoves,
    ⟨last, hlast, hfinished, hsays hreport⟩, hsays (hlist [])⟩

end Command

end Frontend
