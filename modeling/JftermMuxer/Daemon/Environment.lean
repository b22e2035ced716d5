import Mathlib.Data.List.TakeWhile

/-!
# What a shell is started with

{lit}`Pty::spawn` of {lit}`jftermd/src/pty.rs` prepares all strings of the
{lit}`execvpe` before the fork: the arguments, the directory, and the daemon's own
environment with {lit}`TERM` and {lit}`COLORTERM` replaced.  A string goes to the
kernel up to its NUL, so one with a NUL inside is refused.
{lit}`std::env::vars` takes apart the daemon's environment and panics on a variable
that is not text.

Main results:

- Theorem {lit}`joinVar_of_splitVar`: a variable that is taken apart and put together
  again is the same string.
- Theorem {lit}`valueOf_eq`: a lookup finds the variables that are taken apart.
- Theorems {lit}`prepare_isOk_iff` and {lit}`prepare_panics_iff`: when the strings can
  be prepared, and when the preparation panics.
- Theorem {lit}`prepare_spec`: both, and what the shell finds in the strings.
-/

namespace JftermMuxer.Daemon

/-! ## C strings -/

/-- The bytes of a string of the language. -/
def utf8 (s : String) : List UInt8 := s.toUTF8.data.toList

/-- The bytes before the terminating NUL. -/
structure CString where
  bytes : List UInt8
  no_nul : 0 ∉ bytes

/-- Why nothing is forked. -/
inductive PrepareError where
  | nul (position : Nat)
  | emptyArgv
  /-- The panic of {lit}`std::env::vars`. -/
  | notUnicode
deriving DecidableEq, Repr

/-- Where the first NUL is. -/
def nulPosition (bytes : List UInt8) : Option Nat := bytes.findIdx? fun b => b == 0

/-- No position is found exactly when there is no NUL. -/
theorem nulPosition_eq_none_iff {bytes : List UInt8} : nulPosition bytes = none ↔ 0 ∉ bytes := by
  rw [nulPosition, List.findIdx?_eq_none_iff]
  constructor
  · intro hall hmem
    have hzero := hall 0 hmem
    cases hzero
  · intro hmem b hb
    rw [beq_eq_false_iff_ne]
    exact fun h => hmem (h ▸ hb)

namespace CString

/-- A C string is its bytes. -/
theorem bytes_injective {c d : CString} (h : c.bytes = d.bytes) : c = d := by
  cases c
  cases d
  cases h
  rfl

def new (bytes : List UInt8) : Except PrepareError CString :=
  match h : nulPosition bytes with
  | some i => .error (.nul i)
  | none => .ok ⟨bytes, nulPosition_eq_none_iff.mp h⟩

/-- All of them, or the first error. -/
def newAll : List (List UInt8) → Except PrepareError (List CString)
  | [] => .ok []
  | bytes :: more =>
      match new bytes with
      | .error e => .error e
      | .ok c => (newAll more).map (c :: ·)

/-- A prepared string has the bytes it was made from. -/
theorem new_eq_ok_iff {bytes : List UInt8} {c : CString} : new bytes = .ok c ↔ c.bytes = bytes := by
  unfold new
  split
  · rename_i i hnul
    refine iff_of_false (fun h => by cases h) ?_
    rintro rfl
    have hnone := nulPosition_eq_none_iff.mpr c.no_nul
    rw [hnul] at hnone
    cases hnone
  · rename_i hnul
    rw [Except.ok.injEq]
    constructor
    · rintro rfl
      rfl
    · exact fun h => bytes_injective h.symm

/-- Strings that are prepared keep their bytes. -/
theorem newAll_eq_ok_iff {xs : List (List UInt8)} {cs : List CString} :
    newAll xs = .ok cs ↔ cs.map bytes = xs := by
  induction xs generalizing cs with
  | nil =>
      rw [newAll, Except.ok.injEq, List.map_eq_nil_iff]
      exact eq_comm
  | cons x xs ih =>
      rw [newAll]
      cases hnew : new x with
      | error e =>
          refine iff_of_false (fun h => by cases h) ?_
          intro h
          cases cs with
          | nil => cases h
          | cons c cs =>
              have hok := new_eq_ok_iff.mpr (List.cons.inj h).1
              rw [hnew] at hok
              cases hok
      | ok c =>
          have hc := new_eq_ok_iff.mp hnew
          cases hmore : newAll xs with
          | error e =>
              refine iff_of_false (fun h => by cases h) ?_
              intro h
              cases cs with
              | nil => cases h
              | cons d ds =>
                  have hok := ih.mpr (List.cons.inj h).2
                  rw [hmore] at hok
                  cases hok
          | ok ds =>
              have hds := ih.mp hmore
              change Except.ok (c :: ds) = Except.ok cs ↔ _
              rw [Except.ok.injEq]
              constructor
              · rintro rfl
                rw [List.map_cons, hc, hds]
              · intro h
                cases cs with
                | nil => cases h
                | cons d es =>
                    rw [List.map_cons, List.cons.injEq] at h
                    have hsame := ih.mpr h.2
                    rw [hmore, Except.ok.injEq] at hsame
                    rw [hsame, bytes_injective (hc.trans h.1.symm)]

/-- A list of strings is prepared exactly when none has a NUL inside. -/
theorem newAll_isOk_iff {xs : List (List UInt8)} :
    (∃ cs, newAll xs = .ok cs) ↔ ∀ x ∈ xs, 0 ∉ x := by
  constructor
  · rintro ⟨cs, hcs⟩ x hx
    rw [← newAll_eq_ok_iff.mp hcs] at hx
    obtain ⟨c, -, rfl⟩ := List.mem_map.mp hx
    exact c.no_nul
  · intro h
    refine ⟨xs.pmap CString.mk h, newAll_eq_ok_iff.mpr ?_⟩
    rw [List.map_pmap]
    simp

/-- A string that is refused has a NUL inside. -/
theorem error_of_new {bytes : List UInt8} {e : PrepareError} (h : new bytes = .error e) :
    ∃ i, e = .nul i := by
  unfold new at h
  split at h
  · cases h
    exact ⟨_, rfl⟩
  · cases h

/-- So has a list of strings. -/
theorem error_of_newAll {xs : List (List UInt8)} {e : PrepareError} (h : newAll xs = .error e) :
    ∃ i, e = .nul i := by
  induction xs with
  | nil => cases h
  | cons x xs ih =>
      rw [newAll] at h
      cases hnew : new x with
      | error e' =>
          rw [hnew] at h
          cases h
          exact error_of_new hnew
      | ok c =>
          rw [hnew] at h
          cases hmore : newAll xs with
          | error e' =>
              rw [hmore] at h
              cases h
              exact ih hmore
          | ok cs =>
              rw [hmore] at h
              cases h

end CString

/-! ## Variables -/

/-- The name and the value of a variable; a name is not empty, so an equals sign at the
front belongs to it, and a string without another one is no variable. -/
def splitVar : List UInt8 → Option (List UInt8 × List UInt8)
  | [] => none
  | b :: rest =>
      match rest.dropWhile (· ≠ 0x3D) with
      | [] => none
      | _ :: value => some (b :: rest.takeWhile (· ≠ 0x3D), value)

def joinVar (v : List UInt8 × List UInt8) : List UInt8 := v.1 ++ 0x3D :: v.2

private theorem ne_of_mem_takeWhile {x : UInt8} {bytes : List UInt8}
    (h : x ∈ bytes.takeWhile (· ≠ 0x3D)) : x ≠ 0x3D := by
  simpa using List.mem_takeWhile_imp h

/-- A variable is its name, the first equals sign behind its first byte, and its value. -/
theorem splitVar_eq_some_iff {bytes value : List UInt8} {b : UInt8} {name : List UInt8} :
    splitVar bytes = some (b :: name, value) ↔
      bytes = b :: (name ++ 0x3D :: value) ∧ 0x3D ∉ name := by
  cases bytes with
  | nil => exact iff_of_false (fun h => by cases h) (fun h => by cases h.1)
  | cons c rest =>
      rw [splitVar]
      constructor
      · intro h
        have hjoin : rest.takeWhile (· ≠ 0x3D) ++ rest.dropWhile (· ≠ 0x3D) = rest :=
          List.takeWhile_append_dropWhile
        cases hdrop : rest.dropWhile (· ≠ 0x3D) with
        | nil =>
            rw [hdrop] at h
            cases h
        | cons d more =>
            have hhead := List.head?_dropWhile_not (· ≠ 0x3D) rest
            rw [hdrop] at h hjoin hhead
            have hd : d = 0x3D := by simpa using hhead
            cases h
            rw [hd] at hjoin
            exact ⟨congrArg (b :: ·) hjoin.symm, fun hmem => ne_of_mem_takeWhile hmem rfl⟩
      · rintro ⟨heq, hname⟩
        obtain ⟨rfl, rfl⟩ := List.cons.inj heq
        have hall : ∀ x ∈ name, (decide (x ≠ 0x3D)) = true := by
          intro x hx
          rw [decide_eq_true_eq]
          rintro rfl
          exact hname hx
        rw [List.dropWhile_append_of_pos hall, List.takeWhile_append_of_pos hall]
        simp

/-- Taking apart and putting together again. -/
theorem joinVar_of_splitVar {bytes : List UInt8} {v : List UInt8 × List UInt8}
    (h : splitVar bytes = some v) : joinVar v = bytes := by
  obtain ⟨name, value⟩ := v
  cases name with
  | nil =>
      cases bytes with
      | nil => cases h
      | cons b rest =>
          rw [splitVar] at h
          cases hdrop : rest.dropWhile (· ≠ 0x3D) with
          | nil =>
              rw [hdrop] at h
              cases h
          | cons d more =>
              rw [hdrop] at h
              cases h
  | cons b name => exact (splitVar_eq_some_iff.mp h).1.symm

/-- What {lit}`getenv` finds in one string. -/
def valueOf (name bytes : List UInt8) : Option (List UInt8) :=
  if (name ++ [0x3D]).isPrefixOf bytes then some (bytes.drop (name.length + 1)) else none

/-- A lookup finds the string that begins with the name and an equals sign. -/
theorem valueOf_eq_some_iff {name bytes value : List UInt8} :
    valueOf name bytes = some value ↔ bytes = name ++ 0x3D :: value := by
  unfold valueOf
  constructor
  · intro h
    split at h
    · rename_i hbegins
      obtain ⟨rest, rfl⟩ := List.isPrefixOf_iff_prefix.mp hbegins
      cases h
      simp
    · cases h
  · rintro rfl
    have hbegins : (name ++ [0x3D]).isPrefixOf (name ++ 0x3D :: value) = true := by
      rw [List.isPrefixOf_iff_prefix]
      exact ⟨value, by simp⟩
    rw [if_pos hbegins]
    simp

/-- A lookup finds the variables that are taken apart. -/
theorem valueOf_eq {name : List UInt8} (hname : name ≠ []) (hplain : 0x3D ∉ name)
    (bytes : List UInt8) :
    valueOf name bytes = (splitVar bytes).bind fun v => if v.1 = name then some v.2 else none := by
  apply Option.ext
  intro value
  rw [valueOf_eq_some_iff, Option.bind_eq_some_iff]
  cases name with
  | nil => exact absurd rfl hname
  | cons b name =>
      constructor
      · intro h
        have hrest : 0x3D ∉ name := fun hmem => hplain (List.mem_cons_of_mem b hmem)
        exact ⟨(b :: name, value), splitVar_eq_some_iff.mpr ⟨h, hrest⟩, if_pos rfl⟩
      · rintro ⟨⟨found, val⟩, hsplit, hval⟩
        simp only at hval
        split at hval
        · rename_i hfound
          rw [hfound] at hsplit
          cases hval
          exact (splitVar_eq_some_iff.mp hsplit).1
        · cases hval

def getenv (env : List CString) (name : List UInt8) : Option (List UInt8) :=
  env.findSome? fun e => valueOf name e.bytes

/-- Is this the UTF-8 of a string? -/
def isText (bytes : List UInt8) : Bool := (ByteArray.mk bytes.toArray).validateUTF8

/-- {lit}`std::env::vars`, to its end. -/
def vars (environ : List CString) : Except PrepareError (List (List UInt8 × List UInt8)) :=
  let all := environ.filterMap fun e => splitVar e.bytes
  if all.all fun v => isText v.1 && isText v.2 then .ok all else .error .notUnicode

/-! ## The strings of a spawn -/

/-- The variables that are forced on every shell. -/
def isForced (name : List UInt8) : Bool := name == utf8 "TERM" || name == utf8 "COLORTERM"

private theorem no_nul_term : 0 ∉ utf8 "TERM=xterm-256color" :=
  nulPosition_eq_none_iff.mp (by decide +kernel)

private theorem no_nul_colorterm : 0 ∉ utf8 "COLORTERM=truecolor" :=
  nulPosition_eq_none_iff.mp (by decide +kernel)

def forced : List CString :=
  [⟨utf8 "TERM=xterm-256color", no_nul_term⟩, ⟨utf8 "COLORTERM=truecolor", no_nul_colorterm⟩]

/-- The arguments of {lit}`chdir` and {lit}`execvpe`; the file is the first argument. -/
structure Exec where
  argv : List CString
  env : List CString
  cwd : CString
  argv_ne_nil : argv ≠ []

/-- What {lit}`Pty::spawn` does before it forks. -/
def prepare (argv : List String) (cwd : String) (environ : List CString) :
    Except PrepareError Exec :=
  match CString.newAll (argv.map utf8) with
  | .error e => .error e
  | .ok argvC =>
      if hargv : argvC = [] then .error .emptyArgv
      else
        match vars environ with
        | .error e => .error e
        | .ok all =>
            match CString.newAll ((all.filter fun v => !isForced v.1).map joinVar) with
            | .error e => .error e
            | .ok envC =>
                match CString.new (utf8 cwd) with
                | .error e => .error e
                | .ok cwdC => .ok ⟨argvC, envC ++ forced, cwdC, hargv⟩

/-- Does the shell get this string of the daemon's environment? -/
def inherited (e : CString) : Bool := (splitVar e.bytes).any fun v => !isForced v.1

/-- Taken apart, filtered and put together, the strings are the inherited ones. -/
theorem strings_inherited (environ : List CString) :
    ((environ.filterMap fun e => splitVar e.bytes).filter fun v => !isForced v.1).map joinVar =
      (environ.filter inherited).map CString.bytes := by
  induction environ with
  | nil => rfl
  | cons e environ ih =>
      cases hsplit : splitVar e.bytes with
      | none =>
          have hnot : inherited e = false := by simp [inherited, hsplit]
          rw [List.filterMap_cons, hsplit, List.filter_cons_of_neg (by simp [hnot])]
          exact ih
      | some v =>
          have hsame : inherited e = !isForced v.1 := by simp [inherited, hsplit]
          rw [List.filterMap_cons, hsplit]
          cases hforced : isForced v.1 with
          | true =>
              rw [List.filter_cons_of_neg (by simp [hforced]),
                List.filter_cons_of_neg (by simp [hsame, hforced])]
              exact ih
          | false =>
              rw [List.filter_cons_of_pos (by simp [hforced]),
                List.filter_cons_of_pos (by simp [hsame, hforced]), List.map_cons, List.map_cons, ih,
                joinVar_of_splitVar hsplit]

/-- The strings of the environment are prepared whenever {lit}`std::env::vars` goes through. -/
theorem newAll_inherited (environ : List CString) :
    CString.newAll (((environ.filterMap fun e => splitVar e.bytes).filter
      fun v => !isForced v.1).map joinVar) = .ok (environ.filter inherited) :=
  CString.newAll_eq_ok_iff.mpr (strings_inherited environ).symm

private theorem splitVar_term :
    splitVar (utf8 "TERM=xterm-256color") = some (utf8 "TERM", utf8 "xterm-256color") := by
  decide +kernel

private theorem splitVar_colorterm :
    splitVar (utf8 "COLORTERM=truecolor") = some (utf8 "COLORTERM", utf8 "truecolor") := by
  decide +kernel

/-- A string that is no variable, or another one, is passed over. -/
theorem valueOf_eq_none {name : List UInt8} (hname : name ≠ []) (hplain : 0x3D ∉ name)
    {bytes : List UInt8} (h : ∀ v, splitVar bytes = some v → v.1 ≠ name) : valueOf name bytes = none := by
  rw [valueOf_eq hname hplain]
  cases hsplit : splitVar bytes with
  | none => rfl
  | some v => exact if_neg (h v hsplit)

/-- A lookup of a name that is not forced sees the inherited strings as it sees all. -/
theorem getenv_inherited {name : List UInt8} (hname : name ≠ []) (hplain : 0x3D ∉ name)
    (hforced : isForced name = false) (environ : List CString) :
    getenv (environ.filter inherited ++ forced) name = getenv environ name := by
  have hother : name ≠ utf8 "TERM" ∧ name ≠ utf8 "COLORTERM" := by
    simpa [isForced] using hforced
  have hno : getenv forced name = none := by
    have hterm : valueOf name (utf8 "TERM=xterm-256color") = none := by
      apply valueOf_eq_none hname hplain
      rw [splitVar_term]
      rintro v ⟨⟩ rfl
      exact hother.1 rfl
    have hcolorterm : valueOf name (utf8 "COLORTERM=truecolor") = none := by
      apply valueOf_eq_none hname hplain
      rw [splitVar_colorterm]
      rintro v ⟨⟩ rfl
      exact hother.2 rfl
    simp [getenv, forced, List.findSome?, hterm, hcolorterm]
  have hsame : getenv (environ.filter inherited) name = getenv environ name := by
    induction environ with
    | nil => rfl
    | cons e environ ih =>
        cases hkept : inherited e with
        | true =>
            rw [List.filter_cons_of_pos hkept]
            unfold getenv at ih ⊢
            rw [List.findSome?_cons, List.findSome?_cons, ih]
        | false =>
            have hnone : valueOf name e.bytes = none := by
              apply valueOf_eq_none hname hplain
              rintro v hsplit rfl
              simp [inherited, hsplit, hforced] at hkept
            rw [List.filter_cons_of_neg (by simp [hkept]), ih]
            unfold getenv
            rw [List.findSome?_cons, hnone]
  unfold getenv at hno hsame ⊢
  rw [List.findSome?_append, hno, hsame, Option.or_none]

/-- What is forced is found, whatever was inherited. -/
theorem getenv_forced {name : List UInt8} (hname : name ≠ []) (hplain : 0x3D ∉ name)
    (hforced : isForced name = true) (environ : List CString) :
    getenv (environ.filter inherited ++ forced) name = getenv forced name := by
  have hnone : getenv (environ.filter inherited) name = none := by
    unfold getenv
    rw [List.findSome?_eq_none_iff]
    intro e he
    have hkept := (List.mem_filter.mp he).2
    apply valueOf_eq_none hname hplain
    rintro v hsplit rfl
    simp [inherited, hsplit, hforced] at hkept
  unfold getenv at hnone ⊢
  rw [List.findSome?_append, hnone, Option.none_or]

/-- {lit}`std::env::vars` goes through exactly when all variables are text. -/
theorem vars_eq_ok_iff {environ : List CString} {all : List (List UInt8 × List UInt8)} :
    vars environ = .ok all ↔ all = (environ.filterMap fun e => splitVar e.bytes) ∧
      ∀ e ∈ environ, ∀ v, splitVar e.bytes = some v → isText v.1 = true ∧ isText v.2 = true := by
  unfold vars
  simp only
  split
  · rename_i hall
    rw [Except.ok.injEq, List.all_eq_true] at *
    constructor
    · rintro rfl
      refine ⟨rfl, fun e he v hv => ?_⟩
      have htext := hall v (List.mem_filterMap.mpr ⟨e, he, hv⟩)
      rwa [Bool.and_eq_true] at htext
    · exact fun h => h.1.symm
  · rename_i hall
    refine iff_of_false (fun h => by cases h) ?_
    rintro ⟨-, htext⟩
    apply hall
    rw [List.all_eq_true]
    intro v hv
    obtain ⟨e, he, hsplit⟩ := List.mem_filterMap.mp hv
    rw [Bool.and_eq_true]
    exact htext e he v hsplit

/-- The only error of {lit}`std::env::vars` is its panic, on a variable that is not text. -/
theorem vars_eq_error_iff {environ : List CString} {e : PrepareError} :
    vars environ = .error e ↔ e = .notUnicode ∧
      ¬ ∀ e ∈ environ, ∀ v, splitVar e.bytes = some v → isText v.1 = true ∧ isText v.2 = true := by
  constructor
  · intro h
    refine ⟨?_, fun htext => ?_⟩
    · unfold vars at h
      simp only at h
      split at h
      · cases h
      · cases h
        rfl
    · rw [vars_eq_ok_iff.mpr ⟨rfl, htext⟩] at h
      cases h
  · rintro ⟨rfl, hnot⟩
    unfold vars
    simp only
    split
    · rename_i hall
      have hok : vars environ = .ok (environ.filterMap fun e => splitVar e.bytes) := if_pos hall
      exact absurd (vars_eq_ok_iff.mp hok).2 hnot
    · rfl

/-- The preparation panics exactly on a variable that is not text, which is looked at once
the arguments are prepared. -/
theorem prepare_panics_iff {argv : List String} {cwd : String} {environ : List CString} :
    prepare argv cwd environ = .error .notUnicode ↔
      (argv ≠ [] ∧ ∀ arg ∈ argv, 0 ∉ utf8 arg) ∧
        ¬ ∀ e ∈ environ, ∀ v, splitVar e.bytes = some v → isText v.1 = true ∧ isText v.2 = true := by
  have hplain : (∃ cs, CString.newAll (argv.map utf8) = .ok cs) ↔ ∀ arg ∈ argv, 0 ∉ utf8 arg := by
    rw [CString.newAll_isOk_iff]
    simp
  unfold prepare
  cases hargv : CString.newAll (argv.map utf8) with
  | error e =>
      refine iff_of_false ?_ ?_
      · rintro ⟨⟩
        obtain ⟨i, hnul⟩ := CString.error_of_newAll hargv
        cases hnul
      · rintro ⟨⟨-, harguments⟩, -⟩
        obtain ⟨cs, hcs⟩ := hplain.mpr harguments
        rw [hargv] at hcs
        cases hcs
  | ok argvC =>
      have harguments := hplain.mp ⟨argvC, hargv⟩
      have hnil : argvC = [] ↔ argv = [] := by
        have hbytes := congrArg List.length (CString.newAll_eq_ok_iff.mp hargv)
        simp only [List.length_map] at hbytes
        rw [← List.length_eq_zero_iff, hbytes, List.length_eq_zero_iff]
      simp only
      split
      · rename_i hempty
        exact iff_of_false (fun h => by cases h) fun h => h.1.1 (hnil.mp hempty)
      · rename_i hsome
        have hne : argv ≠ [] := fun h => hsome (hnil.mpr h)
        cases hvars : vars environ with
        | error e =>
            obtain ⟨rfl, hnot⟩ := vars_eq_error_iff.mp hvars
            exact iff_of_true rfl ⟨⟨hne, harguments⟩, hnot⟩
        | ok all =>
            obtain ⟨rfl, htext⟩ := vars_eq_ok_iff.mp hvars
            refine iff_of_false ?_ fun h => h.2 htext
            simp only [newAll_inherited]
            cases hcwd : CString.new (utf8 cwd) with
            | error e =>
                obtain ⟨i, rfl⟩ := CString.error_of_new hcwd
                exact fun h => by cases h
            | ok cwdC => exact fun h => by cases h

/-- What is prepared, and when. -/
theorem prepare_eq_ok_iff {argv : List String} {cwd : String} {environ : List CString} {x : Exec} :
    prepare argv cwd environ = .ok x ↔
      (∀ e ∈ environ, ∀ v, splitVar e.bytes = some v → isText v.1 = true ∧ isText v.2 = true) ∧
        x.argv.map CString.bytes = argv.map utf8 ∧ x.env = environ.filter inherited ++ forced ∧
        x.cwd.bytes = utf8 cwd := by
  rw [← CString.newAll_eq_ok_iff, ← CString.new_eq_ok_iff]
  unfold prepare
  constructor
  · intro h
    cases hargv : CString.newAll (argv.map utf8) with
    | error e =>
        rw [hargv] at h
        cases h
    | ok argvC =>
        rw [hargv] at h
        simp only at h
        split at h
        · cases h
        · cases hvars : vars environ with
          | error e =>
              rw [hvars] at h
              cases h
          | ok all =>
              obtain ⟨rfl, htext⟩ := vars_eq_ok_iff.mp hvars
              rw [hvars] at h
              simp only [newAll_inherited] at h
              cases hcwd : CString.new (utf8 cwd) with
              | error e =>
                  rw [hcwd] at h
                  cases h
              | ok cwdC =>
                  rw [hcwd] at h
                  cases h
                  exact ⟨htext, rfl, rfl, rfl⟩
  · rintro ⟨htext, hargv, henv, hcwd⟩
    have hvars := vars_eq_ok_iff.mpr ⟨rfl, htext⟩
    rw [hargv]
    simp only [dif_neg x.argv_ne_nil, hvars, newAll_inherited, hcwd, ← henv]

/-- The strings can be prepared exactly when there is an argument, none of the strings has a
NUL inside and all variables are text. -/
theorem prepare_isOk_iff {argv : List String} {cwd : String} {environ : List CString} :
    (∃ x, prepare argv cwd environ = .ok x) ↔
      argv ≠ [] ∧ (∀ arg ∈ argv, 0 ∉ utf8 arg) ∧ 0 ∉ utf8 cwd ∧
        ∀ e ∈ environ, ∀ v, splitVar e.bytes = some v → isText v.1 = true ∧ isText v.2 = true := by
  constructor
  · rintro ⟨x, hx⟩
    obtain ⟨htext, hargv, -, hcwd⟩ := prepare_eq_ok_iff.mp hx
    refine ⟨?_, ?_, ?_, htext⟩
    · rintro rfl
      exact x.argv_ne_nil (List.map_eq_nil_iff.mp hargv)
    · intro arg harg
      exact CString.newAll_isOk_iff.mp ⟨x.argv, CString.newAll_eq_ok_iff.mpr hargv⟩ _
        (List.mem_map_of_mem harg)
    · rw [← hcwd]
      exact x.cwd.no_nul
  · rintro ⟨hne, hargv, hcwd, htext⟩
    have hplain : ∀ bytes ∈ argv.map utf8, 0 ∉ bytes := by
      intro bytes hbytes
      obtain ⟨arg, harg, rfl⟩ := List.mem_map.mp hbytes
      exact hargv arg harg
    obtain ⟨argvC, hargvC⟩ := CString.newAll_isOk_iff.mpr hplain
    have hbytes := CString.newAll_eq_ok_iff.mp hargvC
    have hsome : argvC ≠ [] := by
      rintro rfl
      exact hne (List.map_eq_nil_iff.mp hbytes.symm)
    exact ⟨⟨argvC, environ.filter inherited ++ forced, ⟨utf8 cwd, hcwd⟩, hsome⟩,
      prepare_eq_ok_iff.mpr ⟨htext, hbytes, rfl, rfl⟩⟩

/-- The strings are prepared exactly when there is an argument, no argument has a NUL
inside and neither has the directory, and all variables of the daemon are text; a variable
that is not makes the task panic once the arguments are prepared.  When all goes well the
shell gets the arguments and the directory byte for byte, finds the two forced values and
no others of these names, and of every other variable what the daemon finds. -/
theorem prepare_spec (argv : List String) (cwd : String) (environ : List CString) :
    ((∃ x, prepare argv cwd environ = .ok x) ↔
        argv ≠ [] ∧ (∀ arg ∈ argv, 0 ∉ utf8 arg) ∧ 0 ∉ utf8 cwd ∧
          ∀ e ∈ environ, ∀ v, splitVar e.bytes = some v → isText v.1 = true ∧ isText v.2 = true) ∧
      (prepare argv cwd environ = .error .notUnicode ↔
        (argv ≠ [] ∧ ∀ arg ∈ argv, 0 ∉ utf8 arg) ∧
          ¬ ∀ e ∈ environ, ∀ v, splitVar e.bytes = some v →
            isText v.1 = true ∧ isText v.2 = true) ∧
      ∀ x, prepare argv cwd environ = .ok x →
        x.argv.map CString.bytes = argv.map utf8 ∧ x.cwd.bytes = utf8 cwd ∧
          getenv x.env (utf8 "TERM") = some (utf8 "xterm-256color") ∧
          getenv x.env (utf8 "COLORTERM") = some (utf8 "truecolor") ∧
          (∀ e ∈ x.env, ∀ v, splitVar e.bytes = some v → isForced v.1 = true → e ∈ forced) ∧
          ∀ name, name ≠ [] → 0x3D ∉ name → isForced name = false →
            getenv x.env name = getenv environ name := by
  refine ⟨prepare_isOk_iff, prepare_panics_iff, ?_⟩
  intro x hx
  obtain ⟨-, hargv, henv, hcwd⟩ := prepare_eq_ok_iff.mp hx
  rw [henv]
  have hterm : utf8 "TERM" ≠ [] ∧ 0x3D ∉ utf8 "TERM" := by decide +kernel
  have hcolorterm : utf8 "COLORTERM" ≠ [] ∧ 0x3D ∉ utf8 "COLORTERM" := by decide +kernel
  refine ⟨hargv, hcwd, ?_, ?_, ?_, ?_⟩
  · rw [getenv_forced hterm.1 hterm.2 (by decide +kernel)]
    decide +kernel
  · rw [getenv_forced hcolorterm.1 hcolorterm.2 (by decide +kernel)]
    decide +kernel
  · intro e he v hsplit hforced
    rcases List.mem_append.mp he with hkept | hnew
    · have hin := (List.mem_filter.mp hkept).2
      simp [inherited, hsplit, hforced] at hin
    · exact hnew
  · intro name hname hplain hforced
    exact getenv_inherited hname hplain hforced environ

end JftermMuxer.Daemon
