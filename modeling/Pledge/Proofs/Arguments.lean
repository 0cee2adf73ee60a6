-- The arguments of a run that compiles a campaign. Flags may stand anywhere and
-- any number of times: it only counts which of them are there, and what the
-- other arguments are, in their order. From these follows how the run ends.
import Pledge.Proofs.CommandLine

namespace Pledge.CommandLine

open Campaign

variable {args args' rest : List String} {a : String}

/-! ## What the arguments say -/

/-- Arguments of a run that compiles: none of them is `-h`, and those that begin with two dashes are
`--hex`, `--disasm` and `--quiet`. -/
structure Ordinary (args : List String) : Prop where
  help : "-h" ∉ args
  known : ∀ a ∈ args, isFlagLike a = true → a = "--hex" ∨ a = "--disasm" ∨ a = "--quiet"

/-- The arguments that are no flags, in order. -/
def positionals (args : List String) : List String :=
  args.filter fun a => !isFlagLike a && a != "-q"

/-- The flags that are there. -/
def optionsOf (args : List String) : Options where
  hex := args.contains "--hex"
  listing := args.contains "--disasm"
  quiet := args.contains "--quiet" || args.contains "-q"
  positional := positionals args

theorem Ordinary.tail (h : Ordinary (a :: rest)) : Ordinary rest where
  help hmem := h.help (List.mem_cons_of_mem a hmem)
  known b hb := h.known b (List.mem_cons_of_mem a hb)

/-- An argument that is neither a flag nor help. -/
structure Positional (a : String) : Prop where
  flag : isFlagLike a = false
  quiet : a ≠ "-q"
  help : a ≠ "-h"

theorem Ordinary.head (h : Ordinary (a :: rest)) :
    a = "--hex" ∨ a = "--disasm" ∨ a = "--quiet" ∨ a = "-q" ∨ Positional a := by
  by_cases hflag : isFlagLike a = true
  · rcases h.known a List.mem_cons_self hflag with rfl | rfl | rfl <;> simp
  · by_cases hquiet : a = "-q"
    · simp [hquiet]
    · have hhelp : a ≠ "-h" := by
        rintro rfl
        exact h.help List.mem_cons_self
      exact .inr (.inr (.inr (.inr ⟨by simpa using hflag, hquiet, hhelp⟩)))

/-- What does not begin with two dashes spells no flag but the two short ones. -/
theorem Positional.ofText? (h : Positional a) : Flag.ofText? a = none := by
  have hne : ∀ text, isFlagLike text = true → a ≠ text := by
    rintro text htext rfl
    rw [h.flag] at htext
    cases htext
  unfold Flag.ofText?
  simp [h.quiet, h.help, hne "--help" (by decide), hne "--hex" (by decide),
    hne "--disasm" (by decide), hne "--quiet" (by decide), hne "--inspect" (by decide)]

/-- What has been said, with one more argument. -/
def Options.after (o : Options) (a : String) : Options :=
  { o with
    hex := a == "--hex" || o.hex
    listing := a == "--disasm" || o.listing
    quiet := a == "--quiet" || a == "-q" || o.quiet
    positional := if isFlagLike a || a == "-q" then o.positional else o.positional ++ [a] }

theorem Positional.after (h : Positional a) (o : Options) :
    o.after a = { o with positional := o.positional ++ [a] } := by
  have hne : ∀ text, isFlagLike text = true → (a == text) = false := by
    rintro text htext
    rw [beq_eq_false_iff_ne]
    rintro rfl
    rw [h.flag] at htext
    cases htext
  unfold Options.after
  simp [h.flag, h.quiet, hne "--hex" (by decide), hne "--disasm" (by decide),
    hne "--quiet" (by decide)]

theorem scan_cons (h : Ordinary (a :: rest)) (o : Options) :
    scan o (a :: rest) = scan (o.after a) rest := by
  rcases h.head with rfl | rfl | rfl | rfl | ha
  · rfl
  · rfl
  · rfl
  · rfl
  · rw [scan.eq_def, ha.after]
    simp [ha.ofText?, ha.flag]

theorem positionals_cons (a : String) (rest : List String) :
    positionals (a :: rest) =
      if isFlagLike a || a == "-q" then positionals rest else a :: positionals rest := by
  unfold positionals
  rw [List.filter_cons]
  cases isFlagLike a <;> cases ha : a == "-q" <;> simp [bne, ha]

theorem foldl_after (o : Options) (args : List String) :
    args.foldl Options.after o = { o with
      hex := o.hex || args.contains "--hex"
      listing := o.listing || args.contains "--disasm"
      quiet := o.quiet || (args.contains "--quiet" || args.contains "-q")
      positional := o.positional ++ positionals args } := by
  induction args generalizing o with
  | nil => simp [positionals]
  | cons a rest ih =>
    rw [List.foldl_cons, ih, positionals_cons]
    simp only [Options.after, List.contains_cons, Options.mk.injEq, true_and]
    refine ⟨?_, ?_, ?_, ?_⟩
    · rw [BEq.comm, Bool.or_comm _ o.hex, Bool.or_assoc]
    · rw [BEq.comm, Bool.or_comm _ o.listing, Bool.or_assoc]
    · rw [@BEq.comm _ _ _ a "--quiet", @BEq.comm _ _ _ a "-q"]
      ac_rfl
    · split <;> simp

/-- Reading the arguments, by induction: each one adds what it says. -/
theorem scan_eq_foldl (h : Ordinary args) (o : Options) :
    scan o args = .ok (args.foldl Options.after o) := by
  induction args generalizing o with
  | nil => rfl
  | cons a rest ih => rw [scan_cons h, ih h.tail, List.foldl_cons]

/-- What the arguments ask for can be seen from which of them are there. -/
theorem scan_ordinary (h : Ordinary args) : scan {} args = .ok (optionsOf args) := by
  rw [scan_eq_foldl h, foldl_after]
  simp [optionsOf]

/-! ## How the run ends -/

variable {program window goal awardee : String} {o : Options} {t : Terms}

/-- Flags may stand anywhere. Two runs end alike and write the same, on both channels, if they have
the same environment, the same arguments besides the flags, in the same order, and the same flags,
where the short flag for a quiet run counts as the long one. -/
theorem flags_may_stand_anywhere (env : Environment) {args args' : List String}
    (h : Ordinary args) (h' : Ordinary args') (hargs : positionals args = positionals args')
    (hhex : "--hex" ∈ args ↔ "--hex" ∈ args') (hlisting : "--disasm" ∈ args ↔ "--disasm" ∈ args')
    (hquiet : "--quiet" ∈ args ∨ "-q" ∈ args ↔ "--quiet" ∈ args' ∨ "-q" ∈ args') :
    run env args = run env args' := by
  have hoptions : optionsOf args = optionsOf args' := by
    have hhex' : args.contains "--hex" = args'.contains "--hex" := by
      rw [Bool.eq_iff_iff, List.contains_iff_mem, List.contains_iff_mem, hhex]
    have hlisting' : args.contains "--disasm" = args'.contains "--disasm" := by
      rw [Bool.eq_iff_iff, List.contains_iff_mem, List.contains_iff_mem, hlisting]
    have hquiet' : (args.contains "--quiet" || args.contains "-q") =
        (args'.contains "--quiet" || args'.contains "-q") := by
      rw [Bool.eq_iff_iff]
      simpa using hquiet
    rw [optionsOf, optionsOf, hargs, hhex', hlisting', hquiet']
  unfold run Settings.answer
  rw [scan_ordinary h, scan_ordinary h', hoptions]

/-- A program with a name of its own, in an environment that names no level for the log, and with a
clock that goes on by a second at each look. -/
def loudEnvironment : Environment :=
  ⟨⟨some "./fund", some "loud", none, none, none⟩, fun n => ⟨1000 * n⟩⟩

/-- A window that looks like a flag, with flags around it and one of them twice, where a warning
about the level of the log is to be written. -/
theorem flags_may_stand_anywhere_around_a_window :
    run loudEnvironment ["--hex", "-5", "-q", "1", "x", "--hex"] =
      run loudEnvironment ["-5", "--quiet", "1", "--hex", "x"] :=
  flags_may_stand_anywhere _ ⟨by decide, by decide⟩ ⟨by decide, by decide⟩ rfl (by decide)
    (by decide) (by decide)

end Pledge.CommandLine
