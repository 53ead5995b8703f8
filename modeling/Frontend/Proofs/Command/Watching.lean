import Frontend.Proofs.Command.Modules
import Frontend.Proofs.Command.Outcomes

/-!
# Watching

A watched project is a precedence table with a module that is loaded again and again from the same
path with the same extension. The path never changes, however the tree does: an event can concern
the project only if the path is clean, and a clean absolute path is resolved to itself. An answer
to an event is therefore a report on the tree as it is then, and nothing that happened before has
a part in it.
-/

namespace Frontend

open Frontend.Action

namespace Project

variable {o : Options} {t : FileTree} {path : Text} {c : Console} {p q : Project} {e : Event}
  {config : Config}

/-! ### Checks -/

/-- What a check of a project says. -/
def verdict (t : FileTree) (p : Project) : Text :=
  match (p.source.parse t p.precedence).2 with
  | .ok _    => okLine p.source.name
  | .error e => e.message

/-- What is said about the module at a path: why it cannot be loaded, why it cannot be parsed, or
that it is in order. -/
def report (prec : Precedence) (t : FileTree) (path ext : Text) : Text :=
  match SourceModule.load t path ext with
  | .ok source => verdict t ⟨prec, source⟩
  | .error e   => e.message

lemma finishes_recheck (o : Options) (t : FileTree) (p : Project) :
    (p.recheck o t).Finishes () (p.verdict t ++ [0x0A]) := by
  rw [recheck, verdict]
  cases h : (p.source.parse t p.precedence).2 with
  | ok m =>
    have hcheck := (finishes_parse (o := o) h).bind
      (f := fun _ => printLine (okLine p.source.name)) (finishes_print _)
    exact hcheck.tryCatch
  | error e =>
    have hcheck := (fails_parse (o := o) h).bind (f := fun _ => printLine (okLine p.source.name))
    apply hcheck.tryCatch
    exact finishes_print _

/-- The first check says what the command that checks a module finds. -/
lemma verdict_eq_okLine_iff (ht : Path.isAbsolute t.workingDir = true)
    (h : Loads o t path config p) (signals : List (FileTree × Signal)) :
    (p.verdict t = okLine p.source.name ↔
      ((Command.run o t signals (.check path)).runOn c).1 = .ok none) ∧
    ∀ e, ((Command.run o t signals (.check path)).runOn c).1 = .error e →
      p.verdict t = e.message := by
  rw [verdict]
  cases hm : (p.source.parse t p.precedence).2 with
  | ok m =>
    have hcheck := (Command.finishes_check h hm signals c).1
    rw [hcheck]
    refine ⟨⟨fun _ => rfl, fun _ => rfl⟩, ?_⟩
    intro e he
    cases he
  | error e =>
    have hcheck := (Command.fails_check h hm signals c).1
    have hfiles : ∀ file ∈ p.source.files, Path.isAbsolute file = true :=
      fun _ hf => SourceModule.isAbsolute_of_load ht h.source hf
    have hne : e.message ≠ okLine p.source.name := by
      intro hok
      apply SourceModule.not_beginsOk_of_parse hfiles hm
      rw [hok]
      exact ⟨0x20 :: p.source.name, rfl⟩
    rw [hcheck]
    refine ⟨⟨fun hok => absurd hok hne, ?_⟩, ?_⟩
    · intro hsuccess
      cases hsuccess
    · rintro e' ⟨⟩
      rfl

/-! ### Events -/

lemma concerns_iff : p.concerns e = true ↔ p.source.isSource e.path = true ∧
    ∃ ch ∈ e.changes, ch ∈ [Change.create, .write, .remove, .rename] := by
  have hmatters : ∀ ch : Change, ch.mattersToSource = true ↔
      ch ∈ [Change.create, .write, .remove, .rename] := by
    intro ch
    cases ch <;> decide
  simp only [concerns, Bool.and_eq_true, List.any_eq_true, hmatters]

/-- The project after an event. -/
def after (p : Project) (t : FileTree) (e : Event) : Project :=
  if p.concerns e then
    match SourceModule.load t p.source.path p.source.ext with
    | .ok source => { p with source }
    | .error _   => p
  else p

/-- What is printed because of an event. -/
def answerTo (p : Project) (t : FileTree) (e : Event) : Text :=
  if p.concerns e then report p.precedence t p.source.path p.source.ext ++ [0x0A] else []

lemma onEvent_of_not_concerns (h : ¬p.concerns e = true) : p.onEvent o t e = pure p := by
  rw [onEvent, if_neg h]

lemma finishes_onEvent (o : Options) (t : FileTree) (p : Project) (e : Event) :
    (p.onEvent o t e).Finishes (p.after t e) (p.answerTo t e) := by
  by_cases h : p.concerns e = true
  · rw [onEvent, after, answerTo, if_pos h, if_pos h, if_pos h, report]
    apply Finishes.of_note
    cases SourceModule.load t p.source.path p.source.ext with
    | error failure => exact (finishes_print _).then_pure p
    | ok source => exact (finishes_recheck o t _).then_pure _
  · rw [onEvent_of_not_concerns h, after, answerTo, if_neg h, if_neg h]
    exact finishes_pure p

/-! ### Settings -/

/-- Two projects have the same precedences, path and extension. -/
structure SameSettings (p q : Project) : Prop where
  precedence : q.precedence = p.precedence
  path : q.source.path = p.source.path
  ext : q.source.ext = p.source.ext

lemma SameSettings.refl (p : Project) : SameSettings p p := ⟨rfl, rfl, rfl⟩

/-- An event leaves the settings as they are. -/
lemma SameSettings.after (hp : Path.isAbsolute p.source.path = true) (h : SameSettings p q)
    (t : FileTree) (e : Event) : SameSettings p (q.after t e) := by
  rw [Project.after]
  by_cases hc : q.concerns e = true
  · rw [if_pos hc]
    cases hl : SourceModule.load t q.source.path q.source.ext with
    | error failure => exact h
    | ok source =>
      obtain ⟨hpath, hext⟩ := SourceModule.path_of_load hl
      have habs : Path.isAbsolute q.source.path = true := by rw [h.path, hp]
      have hclean := SourceModule.clean_of_isSource habs (concerns_iff.1 hc).1
      rw [Path.resolve_of_clean habs hclean] at hpath
      exact ⟨h.precedence, hpath.trans h.path, hext.trans h.ext⟩
  · rw [if_neg hc]
    exact h

/-! ### Runs -/

/-- The project after some events, each of them in the tree as it is then. -/
def afterAll (p : Project) (events : List (FileTree × Event)) : Project :=
  events.foldl (fun q s => q.after s.1 s.2) p

/-- Answers events one after the other. -/
def answerEvents (o : Options) (p : Project) (events : List (FileTree × Event)) : Action Project :=
  events.foldlM (fun q s => q.onEvent o s.1 s.2) p

/-- The signals that tell of events. -/
def signals (events : List (FileTree × Event)) : List (FileTree × Signal) :=
  events.map fun s => (s.1, .event s.2)

lemma answer_signals (o : Options) (p : Project) (events : List (FileTree × Event))
    (ss : List (FileTree × Signal)) :
    p.answer o (signals events ++ ss) = p.answerEvents o events >>= fun q => q.answer o ss := by
  induction events generalizing p with
  | nil => simp [signals, answerEvents]
  | cons s events ih =>
    simp only [signals, List.map_cons, List.cons_append, answer, onSignal, answerEvents,
      List.foldlM_cons, bind_assoc, map_eq_pure_bind, pure_bind]
    exact bind_congr fun q => ih q

lemma finishes_answerEvents (o : Options) (p : Project) (events : List (FileTree × Event)) :
    ∃ lines, (p.answerEvents o events).Finishes (p.afterAll events) lines := by
  induction events generalizing p with
  | nil => exact ⟨[], finishes_pure p⟩
  | cons s events ih =>
    obtain ⟨lines, hrest⟩ := ih (p.after s.1 s.2)
    rw [answerEvents, List.foldlM_cons]
    exact ⟨_, (finishes_onEvent o s.1 p s.2).bind hrest⟩

/-- No events change the settings. -/
theorem sameSettings_afterAll (hp : Path.isAbsolute p.source.path = true)
    (events : List (FileTree × Event)) : SameSettings p (p.afterAll events) := by
  induction events using List.reverseRecOn with
  | nil => exact .refl p
  | append_singleton events s ih =>
    rw [afterAll, List.foldl_append]
    exact ih.after hp s.1 s.2

/-- A watcher never drifts from the tree. It first says whether the module is in order, as the
command that checks it does. Whatever has happened since, its settings are the first ones; an event
that does not concern it changes and prints nothing; and any other event makes it print one report
on the tree as it is then, and leaves it as it was if the module cannot be loaded. -/
theorem watch_answers (ht : Path.isAbsolute t.workingDir = true)
    (hp : ((load o t path).runOn c).1 = .ok p) (events : List (FileTree × Event)) :
    (∀ ss, p.watch o t (signals events ++ ss) =
        p.recheck o t >>= fun _ => p.answerEvents o events >>= fun q => q.answer o ss) ∧
      (∃ first, (p.recheck o t).Finishes () (first ++ [0x0A]) ∧
        ∀ ss, (first = okLine p.source.name ↔
            ((Command.run o t ss (.check path)).runOn c).1 = .ok none) ∧
          ∀ e, ((Command.run o t ss (.check path)).runOn c).1 = .error e → first = e.message) ∧
      ∃ q lines, (p.answerEvents o events).Finishes q lines ∧ SameSettings p q ∧
        ∀ t' e,
          (q.source.isSource e.path = false ∨
              (∀ ch ∈ e.changes, ch ∉ [Change.create, .write, .remove, .rename]) →
            q.onEvent o t' e = pure q) ∧
          (q.source.isSource e.path = true →
              (∃ ch ∈ e.changes, ch ∈ [Change.create, .write, .remove, .rename]) →
            ∃ q', (q.onEvent o t' e).Finishes q'
                (report p.precedence t' p.source.path p.source.ext ++ [0x0A]) ∧
              (∀ source, SourceModule.load t' p.source.path p.source.ext = .ok source →
                q' = { p with source }) ∧
              ∀ failure, SourceModule.load t' p.source.path p.source.ext = .error failure →
                q' = q) := by
  obtain ⟨config, hl⟩ := load_eq_ok.1 hp
  have habs : Path.isAbsolute p.source.path = true := by
    rw [(SourceModule.path_of_load hl.source).1]
    exact Path.isAbsolute_resolve ht path
  obtain ⟨lines, hrun⟩ := finishes_answerEvents o p events
  have hsame := sameSettings_afterAll habs events
  refine ⟨?_, ?_, p.afterAll events, lines, hrun, hsame, ?_⟩
  · -- the signals seen so far are answered before the others
    intro ss
    rw [watch, answer_signals]
  · exact ⟨p.verdict t, finishes_recheck o t p, fun ss => verdict_eq_okLine_iff ht hl ss⟩
  · -- an event after the others: all that is known of the module is that its settings are the first
    generalize p.afterAll events = q at hsame
    intro t' e
    constructor
    · intro h
      apply onEvent_of_not_concerns
      rw [concerns_iff]
      rintro ⟨hsource, ch, hch, hmem⟩
      rcases h with h | h
      · rw [h] at hsource
        cases hsource
      · exact h ch hch hmem
    · intro hsource hch
      have hc : q.concerns e = true := concerns_iff.2 ⟨hsource, hch⟩
      refine ⟨q.after t' e, ?_, ?_, ?_⟩
      · have hanswer := finishes_onEvent o t' q e
        rw [answerTo, if_pos hc, hsame.precedence, hsame.path, hsame.ext] at hanswer
        exact hanswer
      · intro source hs
        rw [after, if_pos hc, hsame.path, hsame.ext, hs]
        exact congrArg (Project.mk · source) hsame.precedence
      · intro failure hf
        rw [after, if_pos hc, hsame.path, hsame.ext, hf]

/-- A module that is in order, gets a second file that is not, and is removed. -/
theorem watch_answers_removed : ∃ t worse gone path p q lines created removed,
    t = ({ workingDir := Text.ofString "/w" } : FileTree).write
      (Text.ofString "/w/m/a.nla") (Text.ofString "def f\n 1\nend\n") ∧
    worse = t.write (Text.ofString "/w/m/b.nla") (Text.ofString "def g\n x\nend\n") ∧
    gone = worse.remove (Text.ofString "/w/m") ∧ path = Text.ofString "m/." ∧
    created = ⟨Text.ofString "/w/m/b.nla", [.create]⟩ ∧
    removed = ⟨Text.ofString "/w/m/b.nla", [.attributes, .remove]⟩ ∧
    Path.isAbsolute t.workingDir = true ∧ ((load {} t path).runOn {}).1 = .ok p ∧
    (p.recheck {} t).Finishes () (Text.ofString "ok m\n") ∧
    (p.answerEvents {} [(worse, created)]).Finishes q lines ∧ SameSettings p q ∧
    (q.onEvent {} gone removed).Finishes q
      (Text.ofString "stat /w/m: no such file or directory\n") := by
  obtain ⟨t, h₁⟩ : ∃ t, t = ({ workingDir := Text.ofString "/w" } : FileTree).write
    (Text.ofString "/w/m/a.nla") (Text.ofString "def f\n 1\nend\n") := ⟨_, rfl⟩
  obtain ⟨worse, h₂⟩ : ∃ worse, worse =
    t.write (Text.ofString "/w/m/b.nla") (Text.ofString "def g\n x\nend\n") := ⟨_, rfl⟩
  obtain ⟨gone, h₃⟩ : ∃ gone, gone = worse.remove (Text.ofString "/w/m") := ⟨_, rfl⟩
  obtain ⟨path, h₄⟩ : ∃ path, path = Text.ofString "m/." := ⟨_, rfl⟩
  obtain ⟨created, h₅⟩ : ∃ created : Event,
    created = ⟨Text.ofString "/w/m/b.nla", [.create]⟩ := ⟨_, rfl⟩
  obtain ⟨removed, h₆⟩ : ∃ removed : Event,
    removed = ⟨Text.ofString "/w/m/b.nla", [.attributes, .remove]⟩ := ⟨_, rfl⟩
  -- what is loaded first, and what a module that is gone is refused with
  obtain ⟨config, hconfig, prec, hprec, source, hsource, hname, u, hadd, ⟨m, hm⟩, hmember, failure,
      hgone, hmessage⟩ :
      ∃ config, Options.configFor {} t path = .ok config ∧
      ∃ prec, config.table = .ok prec ∧
      ∃ source, SourceModule.load t path config.ext = .ok source ∧ source.name = Text.ofString "m" ∧
      ∃ u, CompilationUnit.addFiles t source.files {} = (u, none) ∧ (∃ m, u.parse prec = .ok m) ∧
        (afterAll ⟨prec, source⟩ [(worse, created)]).source.isSource removed.path = true ∧
      ∃ failure, SourceModule.load gone source.path source.ext = .error failure ∧
        failure.message = Text.ofString "stat /w/m: no such file or directory" := by
    subst h₁ h₂ h₃ h₄ h₅ h₆
    exact ⟨_, by cbv, _, by cbv, _, by cbv, by cbv, _, by cbv, ⟨_, by rfl⟩, by cbv, _, by cbv,
      by cbv⟩
  have ht : Path.isAbsolute t.workingDir = true := by
    subst h₁
    rfl
  have hl : Loads {} t path config ⟨prec, source⟩ := ⟨hconfig, hprec, hsource⟩
  have hp : ((load {} t path).runOn {}).1 = .ok ⟨prec, source⟩ := load_eq_ok.2 ⟨config, hl⟩
  have hparse : (source.parse t prec).2 = .ok m := by
    rw [SourceModule.parse, hadd]
    exact hm
  -- the event that created a second file has been answered; the removal is the next one
  obtain ⟨-, ⟨first, hfirst, hcheck⟩, q, lines, hrun, hsame, hnext⟩ :=
    watch_answers ht hp [(worse, created)]
  have hok : first = okLine (Text.ofString "m") := by
    rw [← hname]
    exact (hcheck []).1.2 (Command.finishes_check hl hparse [] {}).1
  rw [hok] at hfirst
  have hq : q.source.isSource removed.path = true := by
    obtain ⟨_, hafter⟩ := finishes_answerEvents {} ⟨prec, source⟩ [(worse, created)]
    obtain rfl := Except.ok.inj ((hrun {}).1.symm.trans (hafter {}).1)
    exact hmember
  have hremove : ∃ ch ∈ removed.changes, ch ∈ [Change.create, .write, .remove, .rename] := by
    subst h₆
    decide
  have hsays : report prec gone source.path source.ext = failure.message := by
    rw [report, hgone]
  obtain ⟨q', hreport, -, hkept⟩ := (hnext gone removed).2 hq hremove
  obtain rfl := hkept failure hgone
  have hlast : (q'.onEvent {} gone removed).Finishes q' (failure.message ++ [0x0A]) := by
    rw [← hsays]
    exact hreport
  rw [hmessage] at hlast
  exact ⟨t, worse, gone, path, _, q', lines, created, removed, h₁, h₂, h₃, h₄, h₅, h₆, ht, hp,
    hfirst, hrun, hsame, hlast⟩

end Project

end Frontend
