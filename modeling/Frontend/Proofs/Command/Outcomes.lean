import Frontend.Command
import Mathlib

/-!
# Outcomes of commands

Commands are put together from steps that write to a console and can fail. Whether a step succeeds
never depends on what has been written, so a command that succeeds can be taken apart into steps
that do, and steps that succeed make one that prints what they print.
-/

namespace Frontend

namespace Action

variable {α β : Type} {a : Action α} {f : α → Action β} {x x' : α} {y : β} {c : Console}
  {s s' : Text}

/-! ### Taking apart -/

lemma runOn_bind (a : Action α) (f : α → Action β) (c : Console) :
    (a >>= f).runOn c =
      match a.runOn c with
      | (.ok x, c)    => (f x).runOn c
      | (.error e, c) => (.error e, c) := by
  simp only [runOn, bind, EStateM.bind]
  cases a c <;> rfl

lemma bind_eq_ok : ((a >>= f).runOn c).1 = .ok y ↔
    ∃ x, (a.runOn c).1 = .ok x ∧ ((f x).runOn (a.runOn c).2).1 = .ok y := by
  rw [runOn_bind]
  obtain ⟨r, c'⟩ := a.runOn c
  cases r <;> simp

lemma pure_eq_ok : ((pure x : Action α).runOn c).1 = .ok x' ↔ x = x' := by
  simp [runOn, pure, EStateM.pure]

lemma note_eq_ok {verbose : Bool} {t : Text} {u : Unit} :
    ((note verbose t).runOn c).1 = .ok u ↔ True := by
  cases verbose <;> simp [runOn, note, modify, modifyGet, MonadStateOf.modifyGet, EStateM.modifyGet,
    pure, EStateM.pure]

lemma ofExcept_eq_ok {r : Except Failure α} :
    ((ofExcept r : Action α).runOn c).1 = .ok x ↔ r = .ok x := by
  cases r <;> simp [runOn, ofExcept, pure, EStateM.pure, throw, throwThe, MonadExceptOf.throw,
    EStateM.throw]

lemma ofExceptWithin_eq_ok {context : String} {r : Except Failure α} :
    ((ofExceptWithin context r).runOn c).1 = .ok x ↔ r = .ok x := by
  cases r <;> simp [runOn, ofExceptWithin, pure, EStateM.pure, throw, throwThe, MonadExceptOf.throw,
    EStateM.throw]

lemma bind_eq_error {e : Failure} (h : ((a >>= f).runOn c).1 = .error e) :
    (a.runOn c).1 = .error e ∨
      ∃ x, (a.runOn c).1 = .ok x ∧ ((f x).runOn (a.runOn c).2).1 = .error e := by
  rw [runOn_bind] at h
  generalize a.runOn c = outcome at h ⊢
  obtain ⟨r, c'⟩ := outcome
  cases r with
  | error e' => exact .inl (congrArg Except.error (Except.error.inj h))
  | ok x => exact .inr ⟨x, rfl, h⟩

lemma ofExceptWithin_eq_error {context : String} {r : Except Failure α} {e : Failure}
    (h : ((ofExceptWithin context r).runOn c).1 = .error e) :
    ∃ e', r = .error e' ∧ e = .within (Text.ofString context) e' := by
  cases r with
  | ok x => cases h
  | error e' => exact ⟨e', rfl, (Except.error.inj h).symm⟩

/-! ### Putting together -/

/-- A step gives a value and prints a text, whatever has been written before. -/
def Finishes (a : Action α) (x : α) (s : Text) : Prop :=
  ∀ c, (a.runOn c).1 = .ok x ∧ (a.runOn c).2.out = c.out ++ s

lemma Finishes.runOn_eq (h : a.Finishes x s) (c : Console) :
    ∃ c', a.runOn c = (.ok x, c') ∧ c'.out = c.out ++ s :=
  ⟨(a.runOn c).2, Prod.ext (h c).1 rfl, (h c).2⟩

lemma Finishes.bind (h : a.Finishes x s) (h' : (f x).Finishes y s') :
    (a >>= f).Finishes y (s ++ s') := by
  intro c
  obtain ⟨c', hr, ho⟩ := h.runOn_eq c
  obtain ⟨hr', ho'⟩ := h' c'
  rw [runOn_bind, hr]
  exact ⟨hr', by rw [ho', ho, List.append_assoc]⟩

lemma finishes_pure (x : α) : (pure x : Action α).Finishes x [] :=
  fun c => ⟨rfl, (List.append_nil c.out).symm⟩

lemma finishes_print (t : Text) : (print t).Finishes () t := fun _ => ⟨rfl, rfl⟩

lemma finishes_note (verbose : Bool) (t : Text) : (note verbose t).Finishes () [] := by
  intro c
  cases verbose <;> exact ⟨rfl, (List.append_nil c.out).symm⟩

lemma finishes_ofExcept (x : α) : (ofExcept (.ok x : Except Failure α) : Action α).Finishes x [] :=
  finishes_pure x

lemma finishes_ofExceptWithin (context : String) (x : α) :
    (ofExceptWithin context (.ok x)).Finishes x [] :=
  finishes_pure x

/-- Notes are not printed. -/
lemma Finishes.of_note {verbose : Bool} {t : Text} {f : Unit → Action β}
    (h : (f ()).Finishes y s) : (note verbose t >>= f).Finishes y s :=
  (finishes_note verbose t).bind h

/-- A step that prints nothing more is done behind a printed text. -/
lemma Finishes.of_print {t : Text} {f : Unit → Action β} (h : (f ()).Finishes y []) :
    (print t >>= f).Finishes y t := by
  have hprint := (finishes_print t).bind h
  rwa [List.append_nil] at hprint

lemma Finishes.then_pure (h : a.Finishes x s) (y : β) :
    (a >>= fun _ => pure y).Finishes y s := by
  rw [← List.append_nil s]
  exact h.bind (finishes_pure y)

/-! ### Failing -/

/-- A step fails and prints a text, whatever has been written before. -/
def Fails (a : Action α) (e : Failure) (s : Text) : Prop :=
  ∀ c, (a.runOn c).1 = .error e ∧ (a.runOn c).2.out = c.out ++ s

variable {e : Failure} {handler : Failure → Action α}

lemma Fails.runOn_eq (h : a.Fails e s) (c : Console) :
    ∃ c', a.runOn c = (.error e, c') ∧ c'.out = c.out ++ s :=
  ⟨(a.runOn c).2, Prod.ext (h c).1 rfl, (h c).2⟩

lemma Fails.bind (h : a.Fails e s) : (a >>= f).Fails e s := by
  intro c
  obtain ⟨c', hr, ho⟩ := h.runOn_eq c
  rw [runOn_bind, hr]
  exact ⟨rfl, ho⟩

lemma Finishes.bind_fails (h : a.Finishes x s) (h' : (f x).Fails e s') :
    (a >>= f).Fails e (s ++ s') := by
  intro c
  obtain ⟨c', hr, ho⟩ := h.runOn_eq c
  obtain ⟨hr', ho'⟩ := h' c'
  rw [runOn_bind, hr]
  exact ⟨hr', by rw [ho', ho, List.append_assoc]⟩

lemma fails_ofExcept (e : Failure) :
    (ofExcept (.error e : Except Failure α) : Action α).Fails e [] :=
  fun c => ⟨rfl, (List.append_nil c.out).symm⟩

/-- A step that prints nothing more fails behind a printed text. -/
lemma Fails.of_print {t : Text} {f : Unit → Action β} (h : (f ()).Fails e []) :
    (print t >>= f).Fails e t := by
  have hprint := (finishes_print t).bind_fails h
  rwa [List.append_nil] at hprint

lemma runOn_tryCatch (a : Action α) (handler : Failure → Action α) (c : Console) :
    (tryCatch a handler).runOn c =
      match a.runOn c with
      | (.ok x, c)    => (.ok x, c)
      | (.error e, c) => (handler e).runOn c := by
  simp only [runOn, tryCatch, tryCatchThe, MonadExceptOf.tryCatch, EStateM.tryCatch]
  cases a c <;> rfl

lemma Finishes.tryCatch (h : a.Finishes x s) : (tryCatch a handler).Finishes x s := by
  intro c
  obtain ⟨c', hr, ho⟩ := h.runOn_eq c
  rw [runOn_tryCatch, hr]
  exact ⟨rfl, ho⟩

lemma Fails.tryCatch (h : a.Fails e s) (h' : (handler e).Finishes x s') :
    (tryCatch a handler).Finishes x (s ++ s') := by
  intro c
  obtain ⟨c', hr, ho⟩ := h.runOn_eq c
  obtain ⟨hr', ho'⟩ := h' c'
  rw [runOn_tryCatch, hr]
  exact ⟨hr', by rw [ho', ho, List.append_assoc]⟩

/-! ### Steps that print nothing -/

/-- A step prints nothing, and what comes out of it does not depend on what has been written. -/
def Settles (a : Action α) : Prop := (∃ x, a.Finishes x []) ∨ ∃ e, a.Fails e []

lemma settles_pure (x : α) : (pure x : Action α).Settles := .inl ⟨x, finishes_pure x⟩

lemma settles_note (verbose : Bool) (t : Text) : (note verbose t).Settles :=
  .inl ⟨(), finishes_note verbose t⟩

lemma settles_ofExcept (r : Except Failure α) : (ofExcept r : Action α).Settles := by
  cases r with
  | ok x => exact .inl ⟨x, finishes_ofExcept x⟩
  | error e => exact .inr ⟨e, fails_ofExcept e⟩

lemma settles_ofExceptWithin (context : String) (r : Except Failure α) :
    (ofExceptWithin context r).Settles := by
  cases r with
  | ok x => exact .inl ⟨x, finishes_ofExceptWithin context x⟩
  | error e => exact .inr ⟨_, fails_ofExcept (.within (Text.ofString context) e)⟩

lemma Settles.bind (h : a.Settles) (h' : ∀ x, (f x).Settles) : (a >>= f).Settles := by
  rcases h with ⟨x, hx⟩ | ⟨e, he⟩
  · rcases h' x with ⟨y, hy⟩ | ⟨e, he⟩
    · exact .inl ⟨y, hx.bind hy⟩
    · exact .inr ⟨e, hx.bind_fails he⟩
  · exact .inr ⟨e, he.bind⟩

lemma settles_mapM (h : ∀ x, (f x).Settles) (xs : List α) : (xs.mapM f).Settles := by
  induction xs with
  | nil => exact settles_pure []
  | cons x xs ih =>
    rw [List.mapM_cons]
    exact (h x).bind fun y => ih.bind fun ys => settles_pure (y :: ys)

end Action

open Frontend.Action

variable {o : Options} {t : FileTree} {path : Text} {config : Config} {p : Project} {m : Module}
  {c : Console}

/-! ### Projects -/

/-- The configuration that is used for a path and the project that is loaded from it. -/
structure Loads (o : Options) (t : FileTree) (path : Text) (config : Config) (p : Project) :
    Prop where
  configured : o.configFor t path = .ok config
  table : config.table = .ok p.precedence
  source : SourceModule.load t path config.ext = .ok p.source

/-- What is loaded from a path is determined. -/
lemma Loads.unique {config' : Config} {p' : Project} (h : Loads o t path config p)
    (h' : Loads o t path config' p') : config = config' ∧ p = p' := by
  obtain rfl := Except.ok.inj (h.configured.symm.trans h'.configured)
  cases p
  cases p'
  obtain rfl := Except.ok.inj (h.table.symm.trans h'.table)
  obtain rfl := Except.ok.inj (h.source.symm.trans h'.source)
  exact ⟨rfl, rfl⟩

namespace Project

lemma load_eq_ok :
    ((load o t path).runOn c).1 = .ok p ↔ ∃ config, Loads o t path config p := by
  simp only [load, bind_eq_ok, pure_eq_ok, note_eq_ok, ofExceptWithin_eq_ok]
  constructor
  · rintro ⟨config, hc, -, -, prec, hp, source, hs, -, -, rfl⟩
    exact ⟨config, hc, hp, hs⟩
  · rintro ⟨config, hc, hp, hs⟩
    exact ⟨config, hc, (), trivial, p.precedence, hp, p.source, hs, (), trivial, rfl⟩

lemma finishes_load (h : Loads o t path config p) : (load o t path).Finishes p [] := by
  rw [load, h.configured]
  refine (finishes_ofExceptWithin _ config).bind ((finishes_note _ _).bind ?_)
  rw [h.table]
  refine (finishes_ofExceptWithin _ p.precedence).bind ?_
  rw [h.source]
  exact (finishes_ofExceptWithin _ p.source).bind ((finishes_note _ _).bind (finishes_pure _))

lemma settles_load (o : Options) (t : FileTree) (path : Text) : (load o t path).Settles :=
  (settles_ofExceptWithin _ _).bind fun _ => (settles_note _ _).bind fun _ =>
    (settles_ofExceptWithin _ _).bind fun _ => (settles_ofExceptWithin _ _).bind fun _ =>
      (settles_note _ _).bind fun _ => settles_pure _

lemma parse_eq_ok {r : SourceFiles × Module} (h : ((p.parse o t).runOn c).1 = .ok r) :
    (p.source.parse t p.precedence).2 = .ok r.2 := by
  simp only [parse, bind_eq_ok, pure_eq_ok, note_eq_ok, ofExcept_eq_ok] at h
  obtain ⟨-, -, m, hm, -, -, rfl⟩ := h
  exact hm

lemma finishes_parse (h : (p.source.parse t p.precedence).2 = .ok m) :
    (p.parse o t).Finishes ((p.source.parse t p.precedence).1, m) [] := by
  rw [parse]
  refine (finishes_note _ _).bind ?_
  generalize p.source.parse t p.precedence = parsed at h
  obtain ⟨files, result⟩ := parsed
  obtain rfl : result = .ok m := h
  exact (finishes_ofExcept m).bind ((finishes_note _ _).bind (finishes_pure _))

lemma fails_parse {e : Failure} (h : (p.source.parse t p.precedence).2 = .error e) :
    (p.parse o t).Fails e [] := by
  rw [parse]
  refine (finishes_note _ _).bind_fails ?_
  generalize p.source.parse t p.precedence = parsed at h
  obtain ⟨files, result⟩ := parsed
  obtain rfl : result = .error e := h
  exact (fails_ofExcept e).bind

end Project

/-! ### Commands -/

namespace Command

lemma onlyFile_eq_ok {source : SourceModule} {file : Text} :
    onlyFile source = .ok file ↔ source.files = [file] := by
  rw [onlyFile]
  split
  case h_1 path hs => simp [hs]
  case h_2 hne =>
    constructor
    · rintro ⟨⟩
    · intro hs
      exact (hne file hs).elim

/-- Formatting in place succeeds for modules of one file that can be parsed. -/
lemma formatInPlace_eq_ok {edit : Edit} (h : ((formatInPlace o t path).runOn c).1 = .ok edit) :
    ∃ config p m, Loads o t path config p ∧ p.source.files = [edit.path] ∧
      (p.source.parse t p.precedence).2 = .ok m ∧ edit.content = m.render := by
  simp only [formatInPlace, bind_eq_ok, Project.load_eq_ok, ofExcept_eq_ok, onlyFile_eq_ok] at h
  obtain ⟨p, ⟨config, hp⟩, file, hfile, ⟨files, m⟩, hm, -, -, he⟩ := h
  obtain rfl := pure_eq_ok.1 he
  exact ⟨config, p, m, hp, hfile, Project.parse_eq_ok hm, rfl⟩

section

variable (h : Loads o t path config p) (hm : (p.source.parse t p.precedence).2 = .ok m)
include h hm

lemma finishes_check (signals : List (FileTree × Signal)) :
    (run o t signals (.check path)).Finishes none [] := by
  have hcheck : (checkModule o t path).Finishes () [] :=
    (Project.finishes_load h).bind ((Project.finishes_parse hm).bind (finishes_note _ _))
  exact hcheck.bind (finishes_pure none)

lemma finishes_format (signals : List (FileTree × Signal)) :
    (run o t signals (.format false path)).Finishes none m.render := by
  have hformat : (formatModule o t path).Finishes () m.render :=
    (Project.finishes_load h).bind ((Project.finishes_parse hm).bind (finishes_print m.render))
  rw [← List.append_nil m.render]
  exact hformat.bind (finishes_pure none)

lemma finishes_formatInPlace {file : Text} (hf : p.source.files = [file]) :
    (formatInPlace o t path).Finishes ⟨file, m.render⟩ [] := by
  refine (Project.finishes_load h).bind ?_
  rw [onlyFile_eq_ok.2 hf]
  exact (finishes_ofExcept file).bind
    ((Project.finishes_parse hm).bind ((finishes_note _ _).bind (finishes_pure _)))

end

lemma fails_check {e : Failure} (h : Loads o t path config p)
    (he : (p.source.parse t p.precedence).2 = .error e) (signals : List (FileTree × Signal)) :
    (run o t signals (.check path)).Fails e [] := by
  have hcheck : (checkModule o t path).Fails e [] :=
    (Project.finishes_load h).bind_fails (Project.fails_parse he).bind
  exact hcheck.bind

/-- The tree after a command: an edit is made when the command has succeeded. -/
def treeAfter (o : Options) (t : FileTree) (signals : List (FileTree × Signal))
    (command : Command) : FileTree :=
  match ((command.run o t signals).runOn {}).1 with
  | .ok edit => t.edit edit
  | .error _ => t

end Command

end Frontend
