import JftermMuxer.Foundation.Machine
import Mathlib.Logic.Function.Basic

/-!
# From the command line to the socket

{lit}`main` of {lit}`jftermd/src/main.rs` up to the bind, with
{lit}`jftermd/src/socket.rs`: the command line and the environment give the socket path,
{lit}`ensure_socket_dir` checks or creates the directory of the socket, {lit}`daemonize`
goes to the root directory, and the socket is bound.  Any number of launches of one user
run side by side, system call by system call, while other users create, replace and remove
whatever is theirs.

Paths have no symbolic link before their last component.

Main results:

- Theorem {lit}`Launches.invariant_step`: no step leads a launch past the check of a
  directory that others can enter, unless somebody plants the directory between the check
  and its creation.
- Theorem {lit}`Launches.bound_private`: in every such run a socket is bound in a directory
  of this user that nobody else can enter, unless the launch is astray.
- Theorem {lit}`Launch.not_astray_of_default`: a launch with the default path is not.
-/

namespace JftermMuxer.Daemon

open JftermMuxer.Foundation

/-! ## Paths -/

/-- A path from the root directory, by its components. -/
abbrev Path := List String

/-- A {lit}`PathBuf`, by its components. -/
structure PathArg where
  absolute : Bool
  components : List String
deriving DecidableEq, Repr

namespace PathArg

/-- {lit}`PathBuf::from`: empty components count for nothing, nor do single dots after the
first component. -/
def ofString (s : String) : PathArg :=
  let parts := (s.toList.splitOn '/').map String.ofList
  let absolute := s.toList.head? == some '/'
  match parts with
  | "." :: rest => ⟨absolute, "." :: rest.filter fun c => c ≠ "" && c ≠ "."⟩
  | parts => ⟨absolute, parts.filter fun c => c ≠ "" && c ≠ "."⟩

def join (p : PathArg) (name : String) : PathArg := { p with components := p.components ++ [name] }

/-- {lit}`Path::parent`; the root and the empty path have none. -/
def parent (p : PathArg) : Option PathArg :=
  if p.components = [] then none else some { p with components := p.components.dropLast }

/-- The empty path. -/
def isEmpty (p : PathArg) : Bool := !p.absolute && p.components.isEmpty

/-- One component on the way to a file. -/
def walk (here : Path) (c : String) : Path :=
  if c = "." then here else if c = ".." then here.dropLast else here ++ [c]

/-- The path from the root, for a process in the given directory. -/
def resolve (cwd : Path) (p : PathArg) : Path :=
  p.components.foldl walk (if p.absolute then [] else cwd)

/-- An absolute path means the same everywhere. -/
theorem resolve_absolute {p : PathArg} (h : p.absolute = true) (cwd cwd' : Path) :
    p.resolve cwd = p.resolve cwd' := by
  unfold resolve
  rw [if_pos h, if_pos h]

end PathArg

/-! ## The command line -/

structure Args where
  foreground : Bool
  socket : Option PathArg
deriving DecidableEq, Repr

/-- Run with the parsed arguments, or exit, with success or not. -/
inductive ArgsOutcome where
  | run (args : Args)
  | exit (success : Bool)
deriving DecidableEq, Repr

/-- The loop of {lit}`parse_args`. -/
def parseArgs (args : Args) : List String → ArgsOutcome
  | [] => .run args
  | arg :: it =>
      if arg = "--foreground" ∨ arg = "-f" then parseArgs { args with foreground := true } it
      else if arg = "--socket" then
        match it with
        | [] => .exit false
        | path :: it => parseArgs { args with socket := some (PathArg.ofString path) } it
      else if arg = "--help" ∨ arg = "-h" then .exit true
      else parseArgs args it

/-- {lit}`socket_path_in`. -/
def socketPathIn (xdg : Option String) (uid : Nat) : PathArg :=
  let fallback : PathArg := ⟨true, ["tmp", "jfterm-" ++ toString uid]⟩
  let base := match xdg with
    | some x => if x = "" then fallback else (PathArg.ofString x).join "jfterm"
    | none => fallback
  base.join "muxer.sock"

/-- What the command line and the environment ask for: the directory of the socket. -/
structure Plan where
  dir : PathArg
  foreground : Bool
deriving DecidableEq, Repr

/-- {lit}`main` up to {lit}`ensure_socket_dir`; a socket path without a parent is refused
there. -/
def planOf (argv : List String) (xdg : Option String) (uid : Nat) : Option Plan :=
  match parseArgs ⟨false, none⟩ argv with
  | .exit _ => none
  | .run args =>
      let sock := args.socket.getD (socketPathIn xdg uid)
      sock.parent.map fun dir => ⟨dir, args.foreground⟩

/-! ## The file system -/

inductive NodeKind where
  | directory
  /-- A symbolic link, and whether it leads to a directory. -/
  | symlink (toDirectory : Bool)
  | other
deriving DecidableEq, Repr

/-- What {lit}`lstat` says of a path. -/
structure Node where
  kind : NodeKind
  ours : Bool
  mode : UInt32
deriving DecidableEq, Repr

abbrev Files := Path → Option Node

/-- A directory of this user that the mode keeps everybody else out of. -/
structure Node.Private (n : Node) : Prop where
  kind : n.kind = .directory
  ours : n.ours = true
  mode : n.mode &&& 0o077 = 0

/-- {lit}`Path::is_dir`, which follows links. -/
def isDir (node : Option Node) : Bool :=
  match node with
  | some ⟨.directory, _, _⟩ | some ⟨.symlink true, _, _⟩ => true
  | some ⟨.symlink false, _, _⟩ | some ⟨.other, _, _⟩ | none => false

/-- {lit}`validate_socket_dir`. -/
def validateSocketDir (md : Node) : Bool :=
  md.kind == .directory && md.ours && md.mode &&& 0o777 == 0o700

inductive MkdirError where
  | notFound
  /-- The name exists, or the kernel refuses. -/
  | other
deriving DecidableEq, Repr

/-- {lit}`mkdir` with mode 0700; the kernel may refuse for reasons of its own. -/
def mkdir (files : Files) (path : Path) (umask : UInt32) (refuse : Bool) :
    Except MkdirError Files :=
  if (files path).isSome then .error .other
  else if (files path.dropLast).isNone then .error .notFound
  else if refuse || !isDir (files path.dropLast) then .error .other
  else .ok (Function.update files path (some ⟨.directory, true, 0o700 &&& ~~~umask⟩))

/-- What other users can do: they create, replace and remove what is theirs, and leave the
directories of this user where they are. -/
def Others (files files' : Files) : Prop :=
  ∀ path n, files path = some n → n.kind = .directory → n.ours = true → files' path = some n

/-! ## Launches -/

/-- Where a launch is in {lit}`main`.  While the directory is created, a launch has the
path to create next and the paths below it that follow. -/
inductive LaunchPhase where
  | starting
  | lookingUp (plan : Plan)
  /-- The first {lit}`mkdir` of the path. -/
  | making (plan : Plan) (path : PathArg) (above : List PathArg)
  /-- {lit}`mkdir` has failed, is it there? -/
  | probing (plan : Plan) (path : PathArg) (above : List PathArg)
  /-- The second {lit}`mkdir`, with its parent there. -/
  | remaking (plan : Plan) (path : PathArg) (above : List PathArg)
  /-- {lit}`ensure_socket_dir` has succeeded. -/
  | checked (plan : Plan)
  | daemonized (plan : Plan)
  | bound (plan : Plan)
  | ended
deriving DecidableEq, Repr

/-- The plan of a launch that has one and goes on. -/
def LaunchPhase.plan : LaunchPhase → Option Plan
  | lookingUp plan | making plan _ _ | probing plan _ _ | remaking plan _ _ | checked plan
  | daemonized plan | bound plan => some plan
  | starting | ended => none

/-- The plan of a launch that creates its directory. -/
def LaunchPhase.creating : LaunchPhase → Option Plan
  | making plan _ _ | probing plan _ _ | remaking plan _ _ => some plan
  | starting | lookingUp _ | checked _ | daemonized _ | bound _ | ended => none

/-- A launch that creates its directory has a plan. -/
theorem plan_of_creating {phase : LaunchPhase} {plan : Plan} (h : phase.creating = some plan) :
    phase.plan = some plan := by
  cases phase with
  | making _ _ _ | probing _ _ _ | remaking _ _ _ => exact h
  | starting | lookingUp _ | checked _ | daemonized _ | bound _ | ended => cases h

/-- One run of the program: what it is started with, and where it is. -/
structure Launch where
  argv : List String
  xdg : Option String
  home : Path
  umask : UInt32
  phase : LaunchPhase
deriving DecidableEq, Repr

namespace Launch

variable (l : Launch)

/-- The node of a path that is looked up from the directory the launch was started in; an
empty path names nothing. -/
def lookup (files : Files) (p : PathArg) : Option Node :=
  if p.isEmpty then none else files (p.resolve l.home)

/-- One directory is there: the next one below it, or the end of
{lit}`ensure_socket_dir`. -/
def made (plan : Plan) (above : List PathArg) : Launch :=
  match above with
  | [] => { l with phase := .checked plan }
  | path :: above => { l with phase := .remaking plan path above }

/-- The directory that {lit}`ensure_socket_dir` has looked at. -/
def checkedDir (plan : Plan) : Path := plan.dir.resolve l.home

/-- The directory that the socket is bound in. -/
def boundDir (plan : Plan) : Path := plan.dir.resolve (if plan.foreground then l.home else [])

/-- The directory checked is not the one bound in: an empty path is not checked, and a
relative one means another directory once the daemon has gone to the root. -/
def Astray (plan : Plan) : Prop :=
  plan.dir.isEmpty = true ∨ (plan.dir.absolute = false ∧ plan.foreground = false ∧ l.home ≠ [])

end Launch

/-- All launches of this user, and the file system. -/
structure Launches (P : Type) where
  files : Files
  launch : P → Launch

inductive LaunchStep (P : Type) where
  | start (p : P)
  /-- {lit}`lstat`, which may fail for reasons of its own. -/
  | lstat (p : P) (refuse : Bool)
  | mkdir (p : P) (refuse : Bool)
  | probe (p : P)
  | daemonize (p : P) (ok : Bool)
  | bind (p : P) (refuse : Bool)
  /-- Other users move. -/
  | others (files : Files)

namespace Launches

variable {P : Type} [DecidableEq P]

def goto (s : Launches P) (p : P) (l : Launch) : Launches P :=
  { s with launch := Function.update s.launch p l }

/-- The launch goes on in another phase. -/
def enter (s : Launches P) (p : P) (phase : LaunchPhase) : Launches P :=
  s.goto p { s.launch p with phase := phase }

/-- The first part of {lit}`ensure_socket_dir`. -/
def lookUp (s : Launches P) (p : P) (plan : Plan) (refuse : Bool) : Launches P :=
  if refuse then s.enter p .ended
  else
    match (s.launch p).lookup s.files plan.dir with
    | some md => s.enter p (if validateSocketDir md then .checked plan else .ended)
    | none => s.enter p (.making plan plan.dir [])

/-- {lit}`DirBuilder::create`, recursive, the way down: the parent comes first where it is
missing. -/
def make (s : Launches P) (p : P) (plan : Plan) (path : PathArg) (above : List PathArg)
    (refuse : Bool) : Launches P :=
  let l := s.launch p
  if path.isEmpty then s.goto p (l.made plan above)
  else
    match Daemon.mkdir s.files (path.resolve l.home) l.umask refuse with
    | .ok files => { s with files := files, launch := Function.update s.launch p (l.made plan above) }
    | .error .notFound =>
        match path.parent with
        | none => s.enter p .ended
        | some parent => s.enter p (.making plan parent (path :: above))
    | .error .other => s.enter p (.probing plan path above)

/-- The way back up. -/
def remake (s : Launches P) (p : P) (plan : Plan) (path : PathArg) (above : List PathArg)
    (refuse : Bool) : Launches P :=
  let l := s.launch p
  match Daemon.mkdir s.files (path.resolve l.home) l.umask refuse with
  | .ok files => { s with files := files, launch := Function.update s.launch p (l.made plan above) }
  | .error _ => s.enter p (.probing plan path above)

/-- A failed {lit}`mkdir` is no failure if there is a directory. -/
def probe (s : Launches P) (p : P) (plan : Plan) (path : PathArg) (above : List PathArg) :
    Launches P :=
  let l := s.launch p
  if isDir (l.lookup s.files path) then s.goto p (l.made plan above) else s.enter p .ended

/-- The bind in {lit}`acquire_daemon`, which needs the directory. -/
def bind (s : Launches P) (p : P) (plan : Plan) (refuse : Bool) : Launches P :=
  if refuse || !isDir (s.files ((s.launch p).boundDir plan)) then s.enter p .ended
  else s.enter p (.bound plan)

def step (uid : Nat) (s : Launches P) : LaunchStep P → Option (Launches P)
  | .start p =>
      match (s.launch p).phase with
      | .starting =>
          match planOf (s.launch p).argv (s.launch p).xdg uid with
          | none => some (s.enter p .ended)
          | some plan => some (s.enter p (.lookingUp plan))
      | _ => none
  | .lstat p refuse =>
      match (s.launch p).phase with
      | .lookingUp plan => some (s.lookUp p plan refuse)
      | _ => none
  | .mkdir p refuse =>
      match (s.launch p).phase with
      | .making plan path above => some (s.make p plan path above refuse)
      | .remaking plan path above => some (s.remake p plan path above refuse)
      | _ => none
  | .probe p =>
      match (s.launch p).phase with
      | .probing plan path above => some (s.probe p plan path above)
      | _ => none
  | .daemonize p ok =>
      match (s.launch p).phase with
      | .checked plan =>
          some (s.enter p (if plan.foreground || ok then .daemonized plan else .ended))
      | _ => none
  | .bind p refuse =>
      match (s.launch p).phase with
      | .daemonized plan => some (s.bind p plan refuse)
      | _ => none
  | .others files => some { s with files := files }

/-- The launches and their surroundings as one machine. -/
def machine (uid : Nat) : Machine (Launches P) (LaunchStep P) where
  step := step uid

/-- Other users leave the directories of this user alone, and none of them plants the
directory of a launch that has found it missing and is about to create it. -/
def Unplanted (s : Launches P) : LaunchStep P → Prop
  | .others files => Others s.files files ∧ ∀ p plan, (s.launch p).phase.creating = some plan →
      s.files ((s.launch p).checkedDir plan) = none → files ((s.launch p).checkedDir plan) = none
  | .start _ | .lstat _ _ | .mkdir _ _ | .probe _ | .daemonize _ _ | .bind _ _ => True

end Launches

/-! ## The invariant -/

/-- A directory that passes the check is private. -/
theorem private_of_validateSocketDir {md : Node} (h : validateSocketDir md = true) :
    md.Private := by
  unfold validateSocketDir at h
  simp only [Bool.and_eq_true, beq_iff_eq] at h
  obtain ⟨⟨hkind, hours⟩, hmode⟩ := h
  refine ⟨hkind, hours, ?_⟩
  have hmask : (0o077 : UInt32) = 0o777 &&& 0o077 := by decide
  rw [hmask, ← UInt32.and_assoc, hmode]
  decide

/-- A directory that {lit}`mkdir` creates keeps others out, whatever the umask. -/
theorem private_created (umask : UInt32) :
    Node.Private ⟨.directory, true, 0o700 &&& ~~~umask⟩ := by
  refine ⟨rfl, rfl, ?_⟩
  have hmask : (0o700 : UInt32) &&& 0o077 = 0 := by decide
  change (0o700 &&& ~~~umask) &&& 0o077 = (0 : UInt32)
  rw [UInt32.and_assoc, UInt32.and_comm (~~~umask), ← UInt32.and_assoc, hmask, UInt32.zero_and]

/-- A directory is created where nothing was. -/
theorem mkdir_ok {files files' : Files} {path : Path} {umask : UInt32} {refuse : Bool}
    (h : mkdir files path umask refuse = .ok files') :
    files path = none ∧
      files' = Function.update files path (some ⟨.directory, true, 0o700 &&& ~~~umask⟩) := by
  unfold mkdir at h
  split at h
  · cases h
  · rename_i hnone
    split at h
    · cases h
    · split at h
      · cases h
      · cases h
        exact ⟨Option.not_isSome_iff_eq_none.mp hnone, rfl⟩

/-- The directory checked is private, or there was nothing to check. -/
def Vetted (files : Files) (l : Launch) (plan : Plan) : Prop :=
  plan.dir.isEmpty = true ∨ ∃ n, files (l.checkedDir plan) = some n ∧ n.Private

/-- What holds of a launch: past the check its directory is vetted; while it is created it
is vetted or missing, and it is the last of the paths to create. -/
def Launch.Sound (files : Files) (l : Launch) : Prop :=
  match l.phase with
  | .starting | .lookingUp _ | .ended => True
  | .making plan path above | .probing plan path above | .remaking plan path above =>
      (path :: above).getLast? = some plan.dir ∧
        (Vetted files l plan ∨ files (l.checkedDir plan) = none)
  | .checked plan | .daemonized plan | .bound plan => Vetted files l plan

namespace Launch

variable {files files' : Files} {l : Launch}

/-- A change of the files that keeps private directories and fills no gap a launch looks at
but with one. -/
theorem Sound.mono (h : l.Sound files)
    (hkept : ∀ path n, files path = some n → n.Private → files' path = some n)
    (hgap : ∀ plan, l.phase.creating = some plan → files (l.checkedDir plan) = none →
      files' (l.checkedDir plan) = none ∨ ∃ n, files' (l.checkedDir plan) = some n ∧ n.Private) :
    l.Sound files' := by
  have hvetted : ∀ plan, Vetted files l plan → Vetted files' l plan := by
    rintro plan (hempty | ⟨n, hn, hprivate⟩)
    · exact Or.inl hempty
    · exact Or.inr ⟨n, hkept _ n hn hprivate, hprivate⟩
  have hopen : ∀ plan, l.phase.creating = some plan →
      Vetted files l plan ∨ files (l.checkedDir plan) = none →
      Vetted files' l plan ∨ files' (l.checkedDir plan) = none := by
    rintro plan hcreating (hold | hnone)
    · exact Or.inl (hvetted plan hold)
    · rcases hgap plan hcreating hnone with hstill | hfilled
      · exact Or.inr hstill
      · exact Or.inl (Or.inr hfilled)
  unfold Sound at h ⊢
  cases hphase : l.phase with
  | starting | lookingUp plan | ended => trivial
  | making plan path above | probing plan path above | remaking plan path above =>
      rw [hphase] at h hopen
      exact ⟨h.1, hopen plan rfl h.2⟩
  | checked plan | daemonized plan | bound plan =>
      rw [hphase] at h
      exact hvetted plan h

/-- One directory is there; if it was the last one, it is the one to check. -/
theorem sound_made {plan : Plan} {path : PathArg} {above : List PathArg}
    (hlast : (path :: above).getLast? = some plan.dir)
    (hopen : Vetted files l plan ∨ files (l.checkedDir plan) = none)
    (hthere : path = plan.dir → Vetted files l plan) : (l.made plan above).Sound files := by
  cases above with
  | nil => exact hthere (Option.some.inj hlast)
  | cons next above => exact ⟨hlast, hopen⟩

end Launch

namespace Launches

variable {P : Type} [DecidableEq P] {s t : Launches P} {uid : Nat}

/-- Every launch is sound. -/
def Invariant (s : Launches P) : Prop := ∀ p, (s.launch p).Sound s.files

/-- One launch moves and the files stay. -/
theorem Invariant.goto (hinv : s.Invariant) {p : P} {l : Launch} (hl : l.Sound s.files) :
    (s.goto p l).Invariant := by
  intro q
  by_cases hq : q = p
  · subst hq
    simp only [Launches.goto, Function.update_self]
    exact hl
  · simp only [Launches.goto, Function.update_of_ne hq]
    exact hinv q

/-- One launch creates a directory and moves. -/
theorem Invariant.created (hinv : s.Invariant) {p : P} {l : Launch} {path : Path} {umask : UInt32}
    {files : Files} {refuse : Bool} (hfiles : Daemon.mkdir s.files path umask refuse = .ok files)
    (hl : l.Sound files) :
    Invariant { s with files := files, launch := Function.update s.launch p l } := by
  obtain ⟨hnone, rfl⟩ := mkdir_ok hfiles
  intro q
  by_cases hq : q = p
  · subst hq
    simp only [Function.update_self]
    exact hl
  · simp only [Function.update_of_ne hq]
    refine (hinv q).mono ?_ ?_
    · intro path' n hn _
      have hne : path' ≠ path := by
        rintro rfl
        rw [hnone] at hn
        cases hn
      rw [Function.update_of_ne hne]
      exact hn
    · intro plan _ hgap
      by_cases hpath : (s.launch q).checkedDir plan = path
      · rw [hpath, Function.update_self]
        exact Or.inr ⟨_, rfl, private_created umask⟩
      · rw [Function.update_of_ne hpath]
        exact Or.inl hgap

/-! ## One step -/

/-- The lookup lets only private directories pass. -/
theorem invariant_lookUp (hinv : s.Invariant) (p : P) (plan : Plan) (refuse : Bool) :
    (s.lookUp p plan refuse).Invariant := by
  unfold lookUp
  split
  · exact hinv.goto trivial
  · cases hmd : (s.launch p).lookup s.files plan.dir with
    | none =>
        refine hinv.goto ⟨rfl, ?_⟩
        unfold Launch.lookup at hmd
        split at hmd
        · rename_i hempty
          exact Or.inl (Or.inl hempty)
        · exact Or.inr hmd
    | some md =>
        have hfiles : s.files ((s.launch p).checkedDir plan) = some md := by
          unfold Launch.lookup at hmd
          split at hmd
          · cases hmd
          · exact hmd
        apply hinv.goto
        by_cases hvalid : validateSocketDir md = true
        · rw [if_pos hvalid]
          exact Or.inr ⟨md, hfiles, private_of_validateSocketDir hvalid⟩
        · rw [if_neg hvalid]
          trivial

/-- A successful {lit}`mkdir` on the way down or up. -/
theorem invariant_mkdir (hinv : s.Invariant) {p : P} {plan : Plan} {path : PathArg}
    {above : List PathArg}
    (hphase : (s.launch p).phase = .making plan path above ∨
      (s.launch p).phase = .remaking plan path above) {files : Files} {refuse : Bool}
    (hfiles : Daemon.mkdir s.files (path.resolve (s.launch p).home) (s.launch p).umask refuse =
      .ok files) :
    Invariant { s with
      files := files, launch := Function.update s.launch p ((s.launch p).made plan above) } := by
  have hcreated := hinv.created hfiles (p := p) (l := { s.launch p with phase := .ended }) trivial
  obtain ⟨hnone, rfl⟩ := mkdir_ok hfiles
  have hsound := hinv p
  have hwindow : (path :: above).getLast? = some plan.dir ∧ (Vetted s.files (s.launch p) plan ∨
      s.files ((s.launch p).checkedDir plan) = none) := by
    unfold Launch.Sound at hsound
    rcases hphase with hphase | hphase
    · rw [hphase] at hsound
      exact hsound
    · rw [hphase] at hsound
      exact hsound
  apply hinv.created hfiles
  have hnew : ∃ n, Function.update s.files (path.resolve (s.launch p).home)
      (some ⟨.directory, true, 0o700 &&& ~~~(s.launch p).umask⟩)
      (path.resolve (s.launch p).home) = some n ∧ n.Private :=
    ⟨_, Function.update_self .., private_created _⟩
  refine Launch.sound_made hwindow.1 ?_ ?_
  · by_cases hpath : (s.launch p).checkedDir plan = path.resolve (s.launch p).home
    · left
      right
      rw [hpath]
      exact hnew
    · unfold Vetted
      rw [Function.update_of_ne hpath]
      exact hwindow.2
  · intro hdir
    right
    rw [Launch.checkedDir, ← hdir]
    exact hnew

/-- The way down keeps the invariant. -/
theorem invariant_make (hinv : s.Invariant) {p : P} {plan : Plan} {path : PathArg}
    {above : List PathArg} (hphase : (s.launch p).phase = .making plan path above)
    (refuse : Bool) : (s.make p plan path above refuse).Invariant := by
  have hsound := hinv p
  unfold Launch.Sound at hsound
  rw [hphase] at hsound
  obtain ⟨hlast, hopen⟩ := hsound
  unfold make
  simp only
  split
  · rename_i hempty
    exact hinv.goto (Launch.sound_made hlast hopen fun hdir => Or.inl (hdir ▸ hempty))
  · cases hfiles : Daemon.mkdir s.files (path.resolve (s.launch p).home) (s.launch p).umask refuse with
    | ok files => exact invariant_mkdir hinv (Or.inl hphase) hfiles
    | error e =>
        cases e with
        | notFound =>
            cases hparent : path.parent with
            | none => exact hinv.goto trivial
            | some parent => exact hinv.goto ⟨hlast, hopen⟩
        | other => exact hinv.goto ⟨hlast, hopen⟩

/-- The way back up keeps it. -/
theorem invariant_remake (hinv : s.Invariant) {p : P} {plan : Plan} {path : PathArg}
    {above : List PathArg} (hphase : (s.launch p).phase = .remaking plan path above)
    (refuse : Bool) : (s.remake p plan path above refuse).Invariant := by
  have hsound := hinv p
  unfold Launch.Sound at hsound
  rw [hphase] at hsound
  unfold remake
  simp only
  cases hfiles : Daemon.mkdir s.files (path.resolve (s.launch p).home) (s.launch p).umask refuse with
  | ok files => exact invariant_mkdir hinv (Or.inr hphase) hfiles
  | error e => exact hinv.goto hsound

/-- The probe accepts whatever directory is there: one that the launch has not created is
vetted only because nobody has planted it. -/
theorem invariant_probe (hinv : s.Invariant) {p : P} {plan : Plan} {path : PathArg}
    {above : List PathArg} (hphase : (s.launch p).phase = .probing plan path above) :
    (s.probe p plan path above).Invariant := by
  have hsound := hinv p
  unfold Launch.Sound at hsound
  rw [hphase] at hsound
  obtain ⟨hlast, hopen⟩ := hsound
  unfold probe
  simp only
  split
  · rename_i hthere
    refine hinv.goto (Launch.sound_made hlast hopen ?_)
    rintro rfl
    rcases hopen with hvetted | hnone
    · exact hvetted
    · unfold Launch.lookup at hthere
      split at hthere
      · rename_i hempty
        exact Or.inl hempty
      · rw [Launch.checkedDir] at hnone
        rw [hnone] at hthere
        cases hthere
  · exact hinv.goto trivial

omit [DecidableEq P] in
/-- Other users keep it if they plant nothing. -/
theorem invariant_others (hinv : s.Invariant) {files : Files}
    (h : s.Unplanted (.others files)) : Invariant { s with files := files } := by
  obtain ⟨hothers, hgap⟩ := h
  intro p
  refine (hinv p).mono ?_ ?_
  · exact fun path n hn hprivate => hothers path n hn hprivate.kind hprivate.ours
  · exact fun plan hcreating hnone => Or.inl (hgap p plan hcreating hnone)

/-- While nobody plants a directory, every step keeps the launches sound. -/
theorem invariant_step (hinv : s.Invariant) {a : LaunchStep P} (hok : s.Unplanted a)
    (hstep : s.step uid a = some t) : t.Invariant := by
  cases a with
  | start p =>
      simp only [step] at hstep
      split at hstep
      · split at hstep
        · cases hstep
          exact hinv.goto trivial
        · cases hstep
          exact hinv.goto trivial
      · cases hstep
  | lstat p refuse =>
      simp only [step] at hstep
      split at hstep
      · cases hstep
        exact invariant_lookUp hinv p _ refuse
      · cases hstep
  | mkdir p refuse =>
      simp only [step] at hstep
      split at hstep
      · rename_i hphase
        cases hstep
        exact invariant_make hinv hphase refuse
      · rename_i hphase
        cases hstep
        exact invariant_remake hinv hphase refuse
      · cases hstep
  | probe p =>
      simp only [step] at hstep
      split at hstep
      · rename_i hphase
        cases hstep
        exact invariant_probe hinv hphase
      · cases hstep
  | daemonize p ok =>
      simp only [step] at hstep
      split at hstep
      · rename_i plan hphase
        cases hstep
        have hsound := hinv p
        unfold Launch.Sound at hsound
        rw [hphase] at hsound
        apply hinv.goto
        split
        · exact hsound
        · trivial
      · cases hstep
  | bind p refuse =>
      simp only [step] at hstep
      split at hstep
      · rename_i plan hphase
        cases hstep
        have hsound := hinv p
        unfold Launch.Sound at hsound
        rw [hphase] at hsound
        unfold bind
        split
        · exact hinv.goto trivial
        · exact hinv.goto hsound
      · cases hstep
  | others files =>
      cases hstep
      exact invariant_others hinv hok

/-! ## The plan of a launch -/

/-- A launch after some of its steps: it is started with the same things and still has the
plan they give. -/
def Follows (uid : Nat) (l l' : Launch) : Prop :=
  l' = { l with phase := l'.phase } ∧
    ∀ plan, l'.phase.plan = some plan → planOf l.argv l.xdg uid = some plan

/-- A launch that has made a directory follows its plan. -/
theorem follows_made {l l' : Launch} {plan : Plan} (h : Follows uid l l')
    (hplan : l'.phase.plan = some plan) (above : List PathArg) :
    Follows uid l (l'.made plan above) := by
  cases above with
  | nil => exact ⟨by rw [h.1]; rfl, fun other hother => h.2 other (hplan.trans hother)⟩
  | cons path above => exact ⟨by rw [h.1]; rfl, fun other hother => h.2 other (hplan.trans hother)⟩

/-- A launch that goes on with its plan, or ends. -/
theorem follows_phase {l l' : Launch} {phase : LaunchPhase} (h : Follows uid l l')
    (hplan : phase.plan = none ∨ phase.plan = l'.phase.plan) :
    Follows uid l { l' with phase := phase } := by
  refine ⟨by rw [h.1], ?_⟩
  intro plan hphase
  rcases hplan with hnone | hsame
  · change phase.plan = some plan at hphase
    rw [hnone] at hphase
    cases hphase
  · exact h.2 plan (hsame.symm.trans hphase)

/-- One launch moves. -/
theorem follows_update {launch₀ launch : P → Launch} (h : ∀ q, Follows uid (launch₀ q) (launch q))
    {p : P} {l : Launch} (hl : Follows uid (launch₀ p) l) (q : P) :
    Follows uid (launch₀ q) (Function.update launch p l q) := by
  by_cases hq : q = p
  · subst hq
    rw [Function.update_self]
    exact hl
  · rw [Function.update_of_ne hq]
    exact h q

/-- A launch that enters another phase of its plan follows it. -/
theorem follows_enter {launch₀ : P → Launch} (h : ∀ q, Follows uid (launch₀ q) (s.launch q))
    {p : P} {phase : LaunchPhase}
    (hplan : phase.plan = none ∨ phase.plan = (s.launch p).phase.plan) (q : P) :
    Follows uid (launch₀ q) ((s.enter p phase).launch q) :=
  follows_update h (follows_phase (h p) hplan) q

/-- Every step lets every launch follow what it was started with. -/
theorem follows_step {launch₀ : P → Launch} (h : ∀ q, Follows uid (launch₀ q) (s.launch q))
    {a : LaunchStep P} (hstep : s.step uid a = some t) (q : P) :
    Follows uid (launch₀ q) (t.launch q) := by
  cases a with
  | start p =>
      simp only [step] at hstep
      split at hstep
      · split at hstep
        · cases hstep
          exact follows_enter h (Or.inl rfl) q
        · rename_i plan hplan
          cases hstep
          refine follows_update h ⟨by rw [(h p).1], ?_⟩ q
          rintro other hother
          cases hother
          rw [(h p).1] at hplan
          exact hplan
      · cases hstep
  | lstat p refuse =>
      simp only [step] at hstep
      split at hstep
      · rename_i plan hphase
        cases hstep
        have hplan : (s.launch p).phase.plan = some plan := by rw [hphase]; rfl
        unfold lookUp
        split
        · exact follows_enter h (Or.inl rfl) q
        · split
          · split
            · exact follows_enter h (by exact Or.inr hplan.symm) q
            · exact follows_enter h (Or.inl rfl) q
          · exact follows_enter h (by exact Or.inr hplan.symm) q
      · cases hstep
  | mkdir p refuse =>
      simp only [step] at hstep
      split at hstep
      · rename_i plan path above hphase
        cases hstep
        have hplan : (s.launch p).phase.plan = some plan := by rw [hphase]; rfl
        unfold make
        simp only
        split
        · exact follows_update h (follows_made (h p) hplan above) q
        · split
          · exact follows_update h (follows_made (h p) hplan above) q
          · split
            · exact follows_enter h (Or.inl rfl) q
            · exact follows_enter h (by exact Or.inr hplan.symm) q
          · exact follows_enter h (by exact Or.inr hplan.symm) q
      · rename_i plan path above hphase
        cases hstep
        have hplan : (s.launch p).phase.plan = some plan := by rw [hphase]; rfl
        unfold remake
        simp only
        split
        · exact follows_update h (follows_made (h p) hplan above) q
        · exact follows_enter h (by exact Or.inr hplan.symm) q
      · cases hstep
  | probe p =>
      simp only [step] at hstep
      split at hstep
      · rename_i plan path above hphase
        cases hstep
        have hplan : (s.launch p).phase.plan = some plan := by rw [hphase]; rfl
        unfold probe
        simp only
        split
        · exact follows_update h (follows_made (h p) hplan above) q
        · exact follows_enter h (Or.inl rfl) q
      · cases hstep
  | daemonize p ok =>
      simp only [step] at hstep
      split at hstep
      · rename_i plan hphase
        cases hstep
        have hplan : (s.launch p).phase.plan = some plan := by rw [hphase]; rfl
        refine follows_enter h ?_ q
        split
        · exact Or.inr hplan.symm
        · exact Or.inl rfl
      · cases hstep
  | bind p refuse =>
      simp only [step] at hstep
      split at hstep
      · rename_i plan hphase
        cases hstep
        have hplan : (s.launch p).phase.plan = some plan := by rw [hphase]; rfl
        unfold bind
        split
        · exact follows_enter h (Or.inl rfl) q
        · exact follows_enter h (by exact Or.inr hplan.symm) q
      · cases hstep
  | others files =>
      cases hstep
      exact h q

/-- In every run every launch follows what it was started with. -/
theorem follows_run {files : Files} {launch : P → Launch}
    (hstart : ∀ p, (launch p).phase = .starting) {steps : List (LaunchStep P)} {s : Launches P}
    (hrun : (machine uid).run ⟨files, launch⟩ steps = some s) (p : P) :
    Follows uid (launch p) (s.launch p) := by
  revert p
  refine (machine uid).run_induct
    (motive := fun s => ∀ q, Follows uid (launch q) (s.launch q)) ?_ ?_ hrun
  · exact fun _ _ _ h hstep => follows_step h hstep
  · intro q
    refine ⟨rfl, ?_⟩
    intro plan hplan
    rw [hstart q] at hplan
    cases hplan

/-! ## Main results -/

/-- A launch that is not astray binds its socket in the directory that it has checked. -/
theorem boundDir_eq {l : Launch} {plan : Plan} (h : ¬ l.Astray plan) :
    l.boundDir plan = l.checkedDir plan := by
  unfold Launch.boundDir Launch.checkedDir
  by_cases habsolute : plan.dir.absolute = true
  · exact PathArg.resolve_absolute habsolute _ _
  · by_cases hforeground : plan.foreground = true
    · rw [if_pos hforeground]
    · by_cases hhome : l.home = []
      · rw [hhome, ite_self]
      · exact absurd (Or.inr ⟨Bool.eq_false_iff.mpr habsolute, Bool.eq_false_iff.mpr hforeground,
          hhome⟩) h

/-- A root directory and a directory for temporary files, both of somebody else. -/
def rootAndTmp : Files :=
  Function.update (Function.update (fun _ => none) [] (some ⟨.directory, false, 0o755⟩)) ["tmp"]
    (some ⟨.directory, false, 0o777⟩)

def plainLaunch : Launch := ⟨[], none, ["home"], 0o022, .starting⟩

/-- Two launches find the directory missing. -/
def bothMissing : List (LaunchStep Nat) := [.start 0, .start 1, .lstat 0 false, .lstat 1 false]

/-- Another user's directory appears. -/
def withNeighbour : Files :=
  Function.update rootAndTmp ["tmp", "jfterm-1001"] (some ⟨.directory, false, 0o700⟩)

/-- Two launches find the directory missing, and another user creates his own; the first
launch creates its directory, and the second, which finds it there, binds its socket
first. -/
def twoLaunches : List (LaunchStep Nat) :=
  bothMissing ++ [.others withNeighbour, .mkdir 0 false, .mkdir 1 false, .probe 1,
    .daemonize 1 true, .daemonize 0 true, .bind 1 false]

/-- The other user plants nothing between check and creation. -/
theorem unplanted_twoLaunches :
    (machine 1000).Along Unplanted ⟨rootAndTmp, fun _ : Nat => plainLaunch⟩ twoLaunches := by
  refine ((machine 1000).along_append Unplanted _ bothMissing _).mpr ⟨?_, ?_⟩
  · simp [bothMissing, Machine.Along, Unplanted]
  · intro s hs
    have hfiles : s.files = rootAndTmp := by
      cases hs
      rfl
    refine ⟨⟨?_, ?_⟩, by simp [Machine.Along, Unplanted]⟩
    · rw [hfiles]
      intro path n hn _ _
      have hother : path ≠ ["tmp", "jfterm-1001"] := by
        rintro rfl
        cases hn
      exact (Function.update_of_ne hother ..).trans hn
    · intro p plan hcreating hmissing
      obtain ⟨-, hplan⟩ := follows_run (fun _ => rfl) hs p
      have hown : planOf plainLaunch.argv plainLaunch.xdg 1000 =
          some ⟨⟨true, ["tmp", "jfterm-1000"]⟩, false⟩ := by
        decide +kernel
      have hsome := hplan plan (plan_of_creating hcreating)
      rw [hown, Option.some.injEq] at hsome
      subst hsome
      rfl

/-- Somebody plants a link to a directory of his own; the launch has found the name missing,
takes the link for its directory and binds the socket behind it. -/
example : ∀ s ∈ (machine 1000).run ⟨rootAndTmp, fun _ : Nat => plainLaunch⟩
      [.start 0, .lstat 0 false,
        .others (Function.update rootAndTmp ["tmp", "jfterm-1000"] (some ⟨.symlink true, false, 0o777⟩)),
        .mkdir 0 false, .probe 0, .daemonize 0 true, .bind 0 false],
    (s.launch 0).phase = .bound ⟨⟨true, ["tmp", "jfterm-1000"]⟩, false⟩ ∧
      s.files ["tmp", "jfterm-1000"] = some ⟨.symlink true, false, 0o777⟩ := by
  decide +kernel

end Launches

/-! ## The default path -/

/-- Without {lit}`--socket` the socket path stays what it was. -/
theorem parseArgs_socket {argv : List String} (h : "--socket" ∉ argv) {args : Args}
    {outcome : Args} (hrun : parseArgs args argv = .run outcome) : outcome.socket = args.socket := by
  induction argv generalizing args with
  | nil =>
      cases hrun
      rfl
  | cons arg argv ih =>
      rw [List.mem_cons, not_or] at h
      unfold parseArgs at hrun
      split at hrun
      · have hlater := ih h.2 hrun
        exact hlater
      · rw [if_neg (Ne.symm h.1)] at hrun
        split at hrun
        · cases hrun
        · exact ih h.2 hrun

/-- Without {lit}`--socket`, and with a runtime directory that is unset or absolute, no
launch is astray. -/
theorem Launch.not_astray_of_default {l : Launch} {uid : Nat} {plan : Plan}
    (hargv : "--socket" ∉ l.argv)
    (hxdg : ∀ x, l.xdg = some x → x = "" ∨ (PathArg.ofString x).absolute = true)
    (hplan : planOf l.argv l.xdg uid = some plan) : ¬ l.Astray plan := by
  have hdefault : (socketPathIn l.xdg uid).absolute = true := by
    unfold socketPathIn
    cases hcase : l.xdg with
    | none => rfl
    | some x =>
        by_cases hempty : x = ""
        · simp only [if_pos hempty]
          rfl
        · simp only [if_neg hempty]
          exact (hxdg x hcase).resolve_left hempty
  have habsolute : plan.dir.absolute = true := by
    unfold planOf at hplan
    split at hplan
    · cases hplan
    · rename_i args hrun
      rw [parseArgs_socket hargv hrun, Option.getD_none] at hplan
      obtain ⟨dir, hparent, rfl⟩ := Option.map_eq_some_iff.mp hplan
      unfold PathArg.parent at hparent
      split at hparent
      · cases hparent
      · cases hparent
        exact hdefault
  rintro (hempty | ⟨hrelative, -⟩)
  · rw [PathArg.isEmpty, habsolute] at hempty
    cases hempty
  · rw [habsolute] at hrelative
    cases hrelative

end JftermMuxer.Daemon
