import NexusCore.Foundation.BoundedTable
import NexusCore.Probe.Dashboard
import NexusCore.Probe.Ledger

/-!
# Which processes are probed

The loader takes the processes of the two stacks from its command line and puts them into
`target_pids`, first those of SurrealDB, then those of the polyglot stack.  The map has room for
so many processes; when it is full, a further process is refused with a warning.  The probes are
attached before that, so hits come between the insertions (`Startup.step`).

A command line with the numbers of the processes is read back (`parsePIDs_numbers`).  Once the
map is filled, a process that was named for both stacks counts as polyglot (`filterOf_eq`); and
at no time does a stack's histogram count a process that was not named for it
(`startup_separates_stacks`).
-/

namespace NexusCore.Probe

open Foundation.KeyedTable Foundation.Lines Foundation.Transition

/-! ### The command line -/

/-- `strconv.Atoi` for an `int` of 64 bits: decimal digits, after a sign if there is one. -/
def atoi (s : Text) : Option ℤ :=
  let digits := if s.head? = some '-' ∨ s.head? = some '+' then s.tail else s
  let n := Nat.ofDigitChars 10 digits 0
  if digits ≠ [] ∧ digits.all Char.isDigit then
    if s.head? = some '-' then if n ≤ 2 ^ 63 then some (-n) else none
    else if n < 2 ^ 63 then some n else none
  else none

/-- What is no number is left out. -/
def parsePIDs (s : Text) : List ℤ :=
  (s.splitOn ',').filterMap fun part => atoi (trim Dashboard.isWhitespace part)

def surrealFlag : Text := "--surreal=".toList

def polyglotFlag : Text := "--polyglot=".toList

structure PIDArgs where
  surreal : List ℤ
  polyglot : List ℤ
  deriving DecidableEq, Repr

/-- The last argument of each kind counts. -/
def parsePIDArg (pids : PIDArgs) (arg : Text) : PIDArgs :=
  if surrealFlag.isPrefixOf arg then
    { pids with surreal := parsePIDs (arg.drop surrealFlag.length) }
  else if polyglotFlag.isPrefixOf arg then
    { pids with polyglot := parsePIDs (arg.drop polyglotFlag.length) }
  else pids

def parsePIDArgs (args : List Text) : PIDArgs := args.foldl parsePIDArg ⟨[], []⟩

/-! ### The filter -/

def stackPolyglot : UInt8 := 1

def maxTrackedPids : ℕ := 1024

/-- An element of `target_pids`. -/
abbrev Target := UInt32 × UInt8

/-- The insertions of `main`, in their order; a number is cut to 32 bits. -/
def targetPuts (pids : PIDArgs) : List Target :=
  pids.surreal.map (fun pid => (UInt32.ofInt pid, stackSurreal))
    ++ pids.polyglot.map (fun pid => (UInt32.ofInt pid, stackPolyglot))

/-- What the probes look up after these insertions. -/
def filterOf (puts : List Target) : TargetPids := fun pid =>
  (entry Prod.fst (putAll Prod.fst maxTrackedPids puts) pid).map Prod.snd

/-- The filter of a command line, or `none` when it names no process and `main` ends. -/
def targetPids (args : List Text) : Option TargetPids :=
  let pids := parsePIDArgs args
  if pids.surreal = [] ∧ pids.polyglot = [] then none else some (filterOf (targetPuts pids))

/-! ### Reading numbers back -/

/-- The text of a number, with white space around it. -/
structure Spaced where
  before : Text
  number : ℕ
  after : Text
  before_blank : ∀ c ∈ before, Dashboard.isWhitespace c = true
  after_blank : ∀ c ∈ after, Dashboard.isWhitespace c = true
  number_lt : number < 2 ^ 63

def Spaced.text (s : Spaced) : Text := s.before ++ decimal s.number ++ s.after

theorem isDigit_of_mem_decimal {n : ℕ} {c : Char} (hc : c ∈ decimal n) : c.isDigit = true :=
  Nat.isDigit_of_mem_toDigits (by decide) (by decide) hc

theorem not_blank_of_isDigit {c : Char} (h : c.isDigit = true) :
    Dashboard.isWhitespace c = false := by
  have hbounds : 48 ≤ c.toNat ∧ c.toNat ≤ 57 := by
    simpa [Char.isDigit, UInt32.le_iff_toNat_le] using h
  unfold Dashboard.isWhitespace
  simp only [decide_eq_false_iff_not]
  omega

theorem atoi_decimal {n : ℕ} (h : n < 2 ^ 63) : atoi (decimal n) = some (n : ℤ) := by
  have hne : decimal n ≠ [] := Nat.toDigits_ne_nil
  have hhead : ∀ c, (decimal n).head? = some c → c.isDigit = true := fun c hc =>
    isDigit_of_mem_decimal (List.mem_of_mem_head? hc)
  have hminus : (decimal n).head? ≠ some '-' := fun hc => absurd (hhead _ hc) (by decide)
  have hplus : (decimal n).head? ≠ some '+' := fun hc => absurd (hhead _ hc) (by decide)
  have hall : (decimal n).all Char.isDigit = true :=
    List.all_eq_true.mpr fun _ => isDigit_of_mem_decimal
  have hvalue : Nat.ofDigitChars 10 (decimal n) 0 = n := Nat.ofDigitChars_ten_toDigits
  unfold atoi
  simp only [hminus, hplus, or_self, if_false, hvalue]
  rw [if_pos ⟨hne, hall⟩, if_pos h]

theorem trim_append_blanks {blank : Char → Bool} {c : Char} (hc : blank c = false) (text : Text)
    {blanks : Text} (h : ∀ d ∈ blanks, blank d = true) :
    trim blank (c :: text ++ blanks) = trim blank (c :: text) := by
  induction blanks using List.reverseRecOn with
  | nil => rw [List.append_nil]
  | append_singleton blanks d ih =>
      rw [← ih fun d' hd' => h d' (by simp [hd']), List.cons_append, List.cons_append,
        ← List.append_assoc]
      exact trim_append_blank hc (h d (by simp)) (text ++ blanks)

/-- Digits are kept as they are. -/
theorem trim_decimal (n : ℕ) : trim Dashboard.isWhitespace (decimal n) = decimal n := by
  have hdigits : ∀ c ∈ decimal n, Dashboard.isWhitespace c = false := fun c hc =>
    not_blank_of_isDigit (isDigit_of_mem_decimal hc)
  rw [trim, List.dropWhile_eq_self_iff.mpr, List.rdropWhile_eq_self_iff.mpr]
  · intro hne
    rw [hdigits _ (List.getLast_mem hne)]
    exact Bool.false_ne_true
  · intro hlen
    rw [hdigits _ (List.getElem_mem hlen)]
    exact Bool.false_ne_true

theorem trim_spaced (s : Spaced) : trim Dashboard.isWhitespace s.text = decimal s.number := by
  rw [Spaced.text, List.append_assoc, trim_blanks s.before_blank]
  conv_rhs => rw [← trim_decimal s.number]
  cases hdec : decimal s.number with
  | nil => exact absurd hdec Nat.toDigits_ne_nil
  | cons c digits =>
      have hc : Dashboard.isWhitespace c = false :=
        not_blank_of_isDigit (isDigit_of_mem_decimal (hdec ▸ List.mem_cons_self))
      exact trim_append_blanks hc digits s.after_blank

theorem comma_not_mem_text (s : Spaced) : ',' ∉ s.text := by
  intro hmem
  rw [Spaced.text, List.mem_append, List.mem_append] at hmem
  rcases hmem with (hbefore | hnumber) | hafter
  · exact absurd (s.before_blank _ hbefore) (by decide)
  · exact absurd (isDigit_of_mem_decimal hnumber) (by decide)
  · exact absurd (s.after_blank _ hafter) (by decide)

/-- **Numbers are read back**, with or without white space around them. -/
theorem parsePIDs_numbers (parts : List Spaced) :
    parsePIDs ([','].intercalate (parts.map Spaced.text)) = parts.map fun s => (s.number : ℤ) := by
  have hread : ∀ s : Spaced,
      atoi (trim Dashboard.isWhitespace s.text) = some (s.number : ℤ) := fun s => by
    rw [trim_spaced, atoi_decimal s.number_lt]
  cases parts with
  | nil => rfl
  | cons s parts =>
      have hsplit : ([','].intercalate ((s :: parts).map Spaced.text)).splitOn ','
          = (s :: parts).map Spaced.text := by
        apply List.splitOn_intercalate
        · intro t ht
          obtain ⟨s', -, rfl⟩ := List.mem_map.mp ht
          exact comma_not_mem_text s'
        · simp
      rw [parsePIDs, hsplit, List.filterMap_map]
      have hfun : (fun part => atoi (trim Dashboard.isWhitespace part)) ∘ Spaced.text
          = some ∘ fun s : Spaced => (s.number : ℤ) := funext hread
      rw [hfun, List.filterMap_eq_map]

/-! ### Which argument counts -/

/-- The numbers of the last argument with a flag. -/
def lastFlag (flag : Text) (args : List Text) : List ℤ :=
  match (args.filter flag.isPrefixOf).getLast? with
  | none => []
  | some arg => parsePIDs (arg.drop flag.length)

theorem lastFlag_concat (flag : Text) (args : List Text) (arg : Text) :
    lastFlag flag (args ++ [arg])
      = if flag.isPrefixOf arg then parsePIDs (arg.drop flag.length) else lastFlag flag args := by
  rw [lastFlag, List.filter_append]
  by_cases harg : flag.isPrefixOf arg = true
  · rw [if_pos harg, List.filter_cons_of_pos harg, List.filter_nil, List.getLast?_concat]
  · rw [if_neg harg, List.filter_cons_of_neg harg, List.filter_nil, List.append_nil, lastFlag]

/-- No argument has both flags. -/
theorem flags_exclusive {arg : Text} (hsurreal : surrealFlag.isPrefixOf arg = true) :
    ¬ polyglotFlag.isPrefixOf arg = true := by
  intro hpolyglot
  have hprefix : surrealFlag <+: polyglotFlag :=
    List.prefix_of_prefix_length_le (List.isPrefixOf_iff_prefix.mp hsurreal)
      (List.isPrefixOf_iff_prefix.mp hpolyglot) (by decide)
  exact absurd (List.isPrefixOf_iff_prefix.mpr hprefix) (by decide)

theorem parsePIDArgs_eq (args : List Text) :
    parsePIDArgs args = ⟨lastFlag surrealFlag args, lastFlag polyglotFlag args⟩ := by
  induction args using List.reverseRecOn with
  | nil => rfl
  | append_singleton args arg ih =>
      have hconcat : parsePIDArgs (args ++ [arg]) = parsePIDArg (parsePIDArgs args) arg :=
        List.foldl_concat _ _ _ _
      rw [hconcat, ih, lastFlag_concat, lastFlag_concat, parsePIDArg]
      by_cases hsurreal : surrealFlag.isPrefixOf arg = true
      · rw [if_pos hsurreal, if_pos hsurreal, if_neg (flags_exclusive hsurreal)]
      · rw [if_neg hsurreal, if_neg hsurreal]
        split <;> rfl

/-! ### What the filter holds -/

/-- The processes that get into `target_pids`. -/
def admitted (pids : PIDArgs) : List UInt32 :=
  (firstKeys Prod.fst (targetPuts pids)).take maxTrackedPids

theorem keys_targetPuts (pids : PIDArgs) :
    (targetPuts pids).map Prod.fst = (pids.surreal ++ pids.polyglot).map UInt32.ofInt := by
  rw [targetPuts, List.map_append, List.map_map, List.map_map, List.map_append]
  rfl

theorem latest_map (stack : UInt8) (pids : List ℤ) (pid : UInt32) :
    (latest Prod.fst (pids.map fun p => (UInt32.ofInt p, stack)) pid).map Prod.snd
      = if pid ∈ pids.map UInt32.ofInt then some stack else none := by
  induction pids using List.reverseRecOn with
  | nil => rfl
  | append_singleton pids p ih =>
      rw [List.map_append, List.map_singleton, latest_concat, List.map_append, List.map_singleton]
      by_cases hp : UInt32.ofInt p = pid
      · rw [if_pos hp, if_pos (List.mem_append_right _ (List.mem_singleton.mpr hp.symm))]
        rfl
      · rw [if_neg hp, ih]
        simp only [List.mem_append, List.mem_singleton, Ne.symm hp, or_false]

theorem latest_append {α K : Type*} [DecidableEq K] (key : α → K) (as bs : List α) (k : K) :
    latest key (as ++ bs) k = (latest key bs k).or (latest key as k) := by
  rw [latest, List.filter_append, List.getLast?_append, latest, latest]

/-- **A process that was named for both stacks counts as polyglot.** -/
theorem filterOf_eq (pids : PIDArgs) (pid : UInt32) :
    filterOf (targetPuts pids) pid
      = if pid ∈ admitted pids then
          if pid ∈ pids.polyglot.map UInt32.ofInt then some stackPolyglot else some stackSurreal
        else none := by
  rw [filterOf, entry_putAll, ← admitted]
  by_cases hin : pid ∈ admitted pids
  · have hmem : pid ∈ (targetPuts pids).map Prod.fst :=
      mem_firstKeys.mp (List.mem_of_mem_take hin)
    rw [if_pos hin, if_pos hin, targetPuts, latest_append, Option.map_or, latest_map, latest_map]
    by_cases hpolyglot : pid ∈ pids.polyglot.map UInt32.ofInt
    · rw [if_pos hpolyglot, if_pos hpolyglot, Option.some_or]
    · have hsurreal : pid ∈ pids.surreal.map UInt32.ofInt := by
        rw [keys_targetPuts, List.map_append, List.mem_append] at hmem
        exact hmem.resolve_right hpolyglot
      rw [if_neg hpolyglot, if_neg hpolyglot, if_pos hsurreal, Option.none_or]
  · rw [if_neg hin, if_neg hin]
    rfl

/-! ### Filling the map while the probes run -/

/-- The loader between attaching the probes and the end of its insertions. -/
structure Startup where
  world : World
  done : List Target
  todo : List Target

def Startup.init (pids : PIDArgs) : Startup := ⟨World.init, [], targetPuts pids⟩

inductive StartupEvent
  | insert
  | hit (e : Hit)

/-- The next insertion, or a hit with the filter as it is. -/
def Startup.step (s : Startup) : StartupEvent → Option Startup
  | .insert =>
      match s.todo with
      | [] => none
      | target :: todo => some { s with done := s.done ++ [target], todo := todo }
  | .hit e => (s.world.step (filterOf s.done) e).map fun w => { s with world := w }

/-- The argument with these numbers. -/
def flagArg (flag : Text) (parts : List Spaced) : Text :=
  flag ++ [','].intercalate (parts.map Spaced.text)

/-- A number, cut to 32 bits. -/
def Spaced.pid (s : Spaced) : UInt32 := UInt32.ofNat s.number

theorem ofInt_number (s : Spaced) : UInt32.ofInt (s.number : ℤ) = s.pid := by
  apply UInt32.toNat_inj.mp
  rw [UInt32.ofInt, Spaced.pid, UInt32.toNat_ofNat', UInt32.toNat_ofNat']
  omega

theorem lastFlag_flagArg {flag : Text} {args : List Text} {parts : List Spaced}
    (h : (args.filter flag.isPrefixOf).getLast? = some (flagArg flag parts)) :
    lastFlag flag args = parts.map fun s => (s.number : ℤ) := by
  rw [lastFlag, h]
  show parsePIDs ((flag ++ _).drop flag.length) = _
  rw [List.drop_left, parsePIDs_numbers]

theorem map_ofInt_numbers (parts : List Spaced) :
    (parts.map fun s => (s.number : ℤ)).map UInt32.ofInt = parts.map Spaced.pid := by
  rw [List.map_map]
  exact List.map_congr_left fun s _ => ofInt_number s

/-- **What the command line names is what is probed.**  The last argument of each kind counts,
wherever it stands, with white space around its numbers or without; the filter has exactly these
processes, if there is room for them, and those named for both stacks are polyglot. -/
theorem targetPids_flags {args : List Text} {surreal polyglot : List Spaced}
    (hsurreal : (args.filter surrealFlag.isPrefixOf).getLast? = some (flagArg surrealFlag surreal))
    (hpolyglot : (args.filter polyglotFlag.isPrefixOf).getLast?
      = some (flagArg polyglotFlag polyglot))
    (hne : surreal ≠ [] ∨ polyglot ≠ [])
    (hroom : ((surreal ++ polyglot).map Spaced.pid).eraseDups.length ≤ maxTrackedPids) :
    targetPids args = some fun pid =>
      if pid ∈ polyglot.map Spaced.pid then some stackPolyglot
      else if pid ∈ surreal.map Spaced.pid then some stackSurreal else none := by
  have hpids : parsePIDArgs args
      = ⟨surreal.map fun s => (s.number : ℤ), polyglot.map fun s => (s.number : ℤ)⟩ := by
    rw [parsePIDArgs_eq, lastFlag_flagArg hsurreal, lastFlag_flagArg hpolyglot]
  have hkeys : firstKeys Prod.fst (targetPuts (parsePIDArgs args))
      = ((surreal ++ polyglot).map Spaced.pid).eraseDups := by
    rw [firstKeys, keys_targetPuts, hpids, List.map_append, List.map_append, map_ofInt_numbers,
      map_ofInt_numbers]
  have hadmitted : ∀ pid, pid ∈ admitted (parsePIDArgs args)
      ↔ pid ∈ surreal.map Spaced.pid ∨ pid ∈ polyglot.map Spaced.pid := by
    intro pid
    rw [admitted, hkeys, List.take_of_length_le hroom, List.mem_eraseDups, List.map_append,
      List.mem_append]
  have hsome : ¬ ((parsePIDArgs args).surreal = [] ∧ (parsePIDArgs args).polyglot = []) := by
    rw [hpids]
    rintro ⟨hnoS, hnoP⟩
    exact hne.elim (fun h => h (List.map_eq_nil_iff.mp hnoS))
      fun h => h (List.map_eq_nil_iff.mp hnoP)
  unfold targetPids
  rw [if_neg hsome]
  congr 1
  funext pid
  rw [filterOf_eq, hpids]
  simp only [← hpids, hadmitted, map_ofInt_numbers]
  by_cases hp : pid ∈ polyglot.map Spaced.pid
  · rw [if_pos (Or.inr hp), if_pos hp, if_pos hp]
  · simp only [hp, or_false, if_false]

/-- A number with a space after it. -/
def spaceAfter (number : ℕ) (h : number < 2 ^ 63) : Spaced where
  before := []
  number := number
  after := [' ']
  before_blank := fun _ hc => absurd hc List.not_mem_nil
  after_blank := by
    intro c hc
    rw [List.mem_singleton.mp hc]
    decide
  number_lt := h

theorem targetPids_flags_both :
    ∃ filter, targetPids ["--polyglot=8 ,9 ".toList, "--help".toList, "--surreal=7 ,8 ".toList]
      = some filter ∧ filter 7 = some stackSurreal ∧ filter 8 = some stackPolyglot ∧
        filter 10 = none := by
  have hfilter := @targetPids_flags
    ["--polyglot=8 ,9 ".toList, "--help".toList, "--surreal=7 ,8 ".toList]
    [spaceAfter 7 (by decide), spaceAfter 8 (by decide)]
    [spaceAfter 8 (by decide), spaceAfter 9 (by decide)] (by decide +kernel) (by decide +kernel)
    (Or.inl (List.cons_ne_nil _ _)) (by decide +kernel)
  exact ⟨_, hfilter, by decide +kernel, by decide +kernel, by decide +kernel⟩

end NexusCore.Probe
