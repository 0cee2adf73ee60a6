-- Where control can be. If all branches and jumps of a program lead to
-- instructions, or to the end of the code, then control is never anywhere
-- else, whatever happens to the machine.
import Pledge.Proofs.Assembly.Passes
import Pledge.Proofs.Lasting

namespace Pledge

/-- An instruction begins at the position, or the code ends there. -/
def Boundary (code : Bytes) (raws : List RawInstr) (position : Nat) : Prop :=
  position ∈ raws.map RawInstr.offset ∨ position = code.length

/-- The code decodes, and all its branches and jumps lead to boundaries. -/
structure Closed (code : Bytes) (raws : List RawInstr) : Prop where
  decodes : Instr.decodeAll code = .ok raws
  branches : ∀ r ∈ raws, ∀ target, r.branchTarget? = some target → Boundary code raws target
  jumps : ∀ r ∈ raws, ∀ target, r.codeTarget? = some target → Boundary code raws target

/-- All places that a machine remembers in its program are boundaries. -/
structure OnTrack (code : Bytes) (raws : List RawInstr) (m : Machine) : Prop where
  loaded : m.code = code.toArray
  pc : Boundary code raws m.pc
  restart : Boundary code raws m.restart
  handler : ∀ position, m.handler = some position → Boundary code raws position
  callStack : ∀ position ∈ m.callStack, Boundary code raws position

/-! ## Boundaries -/

/-- A boundary lies between two parts of the row of instructions. -/
theorem boundary_iff {is : List Instr} {position : Nat} :
    Boundary (Instr.encodeAll is) (Instr.rawsFrom 0 is) position ↔
      ∃ before after, is = before ++ after ∧ position = (Instr.encodeAll before).length := by
  unfold Boundary
  constructor
  · rintro (hmem | rfl)
    · obtain ⟨r, hr, rfl⟩ := List.mem_map.mp hmem
      obtain ⟨before, i, after, hsplit, rfl⟩ := Instr.mem_rawsFrom.mp hr
      exact ⟨before, i :: after, hsplit, Nat.zero_add _⟩
    · exact ⟨is, [], (List.append_nil is).symm, rfl⟩
  · rintro ⟨before, after, rfl, rfl⟩
    cases after with
    | nil =>
      right
      rw [List.append_nil]
    | cons i after =>
      left
      refine List.mem_map.mpr ⟨_, Instr.mem_rawsFrom.mpr ⟨before, i, after, rfl, rfl⟩, ?_⟩
      exact Nat.zero_add _

section

variable {code : Bytes} {raws : List RawInstr}

theorem boundary_zero (h : Instr.decodeAll code = .ok raws) : Boundary code raws 0 := by
  obtain ⟨is, rfl, rfl⟩ := Instr.exists_of_decodeAll h
  exact boundary_iff.mpr ⟨[], is, rfl, rfl⟩

/-- At a boundary an instruction is fetched, with the next boundary behind it, or the code is at
its end. -/
theorem fetch_boundary {position : Nat} (h : Instr.decodeAll code = .ok raws)
    (hp : Boundary code raws position) :
    (∃ i, Instr.fetch code.toArray position = .ok i ∧ i.raw position ∈ raws ∧
      Boundary code raws (position + i.size)) ∨
    position = code.length ∧
      Instr.fetch code.toArray position = .error (.endOfCode code.length) := by
  obtain ⟨is, rfl, rfl⟩ := Instr.exists_of_decodeAll h
  obtain ⟨before, after, rfl, rfl⟩ := boundary_iff.mp hp
  cases after with
  | nil =>
    right
    rw [List.append_nil]
    exact ⟨rfl, Instr.fetch_length _⟩
  | cons i after =>
    left
    refine ⟨i, Instr.fetch_encodeAll before i after, ?_, ?_⟩
    · exact Instr.mem_rawsFrom.mpr ⟨before, i, after, rfl, by rw [Nat.zero_add]⟩
    · refine boundary_iff.mpr ⟨before ++ [i], after, by simp, ?_⟩
      rw [Instr.encodeAll_append, List.length_append, Instr.encodeAll_cons, List.length_append,
        Instr.length_toBytes]
      rfl

/-! ## One instruction -/

theorem OnTrack.same {m m' : Machine} (h : OnTrack code raws m) (hs : SamePlace m m') :
    OnTrack code raws m' where
  loaded := hs.code.trans h.loaded
  pc := hs.pc ▸ h.pc
  restart := hs.restart ▸ h.restart
  handler := hs.handler ▸ h.handler
  callStack := hs.callStack ▸ h.callStack

/-- Each end of an instruction of closed code is at a boundary, and so is each place that it makes
the machine remember. -/
theorem OnTrack.of_end {position : Nat} {i : Instr} {m : Machine}
    {r : EStateM.Result Halt Machine Flow} (hclosed : Closed code raws)
    (hi : i.raw position ∈ raws) (hnext : Boundary code raws (position + i.size))
    (h : OnTrack code raws m) (he : Ends position i m r) : OnTrack code raws (leaves r) := by
  obtain ⟨hloaded, hpc, hrestart, hhandler, hcalls⟩ := h
  cases he with
  | next | sleep wake => exact ⟨hloaded, hnext, hrestart, hhandler, hcalls⟩
  | branch ht => exact ⟨hloaded, hclosed.branches _ hi _ ht, hrestart, hhandler, hcalls⟩
  | jump ht => exact ⟨hloaded, hclosed.jumps _ hi _ ht, hrestart, hhandler, hcalls⟩
  | jumpSub ht =>
    refine ⟨hloaded, hclosed.jumps _ hi _ ht, hrestart, hhandler, ?_⟩
    intro position hmem
    rcases List.mem_cons.mp hmem with rfl | hmem
    · exact hnext
    · exact hcalls position hmem
  | returnSub hs =>
    rw [hs] at hcalls
    refine ⟨hloaded, hcalls _ List.mem_cons_self, hrestart, hhandler, ?_⟩
    intro position hmem
    exact hcalls position (List.mem_cons_of_mem _ hmem)
  | onFault ht =>
    refine ⟨hloaded, hnext, hrestart, ?_, hcalls⟩
    intro position hp
    cases hp
    exact hclosed.jumps _ hi _ ht
  | setRestart => exact ⟨hloaded, hnext, hnext, hhandler, hcalls⟩
  | stop | finish | trouble _ => exact ⟨hloaded, hpc, hrestart, hhandler, hcalls⟩

theorem OnTrack.step {m : Machine} (hclosed : Closed code raws) (h : OnTrack code raws m)
    (view : View) : OnTrack code raws (leaves (Exec.step view m)) := by
  rcases Exec.step_cases view m with ⟨_, _, hs⟩ | ⟨i, hfetch, ⟨_, _, hs⟩ | ⟨_, m₁, hc, he⟩⟩
  · rw [hs]
    exact h
  · rw [hs]
    exact h
  · rw [h.loaded] at hfetch
    rcases fetch_boundary hclosed.decodes h.pc with ⟨j, hj, hraw, hnext⟩ | ⟨_, hend⟩
    · cases hj.symm.trans hfetch
      exact of_end hclosed hraw hnext (h.same (samePlace_changes hc)) he
    · cases hend.symm.trans hfetch

/-- The only fault of closed code itself is that it ends. -/
theorem OnTrack.eq_endOfCode {m m' : Machine} {view : View} {reason : ProgramError}
    (hclosed : Closed code raws) (h : OnTrack code raws m)
    (hs : Exec.step view m = .error (.fault (.code reason)) m') :
    reason = .endOfCode code.length ∧ m.pc = code.length := by
  rcases Exec.step_cases view m with ⟨reason', hfetch, hs'⟩ | ⟨i, _, ⟨_, _, hs'⟩ | ⟨_, m₁, _, he⟩⟩
  · cases hs.symm.trans hs'
    rw [h.loaded] at hfetch
    rcases fetch_boundary hclosed.decodes h.pc with ⟨j, hj, _⟩ | ⟨hpc, hend⟩
    · cases hj.symm.trans hfetch
    · cases hend.symm.trans hfetch
      exact ⟨rfl, hpc⟩
  · cases hs.symm.trans hs'
  · -- The changes of an instruction and its end fail for other reasons.
    rw [hs] at he
    cases he with
    | trouble ht =>
      cases ht with
      | fault f hne => exact absurd rfl (hne reason)

theorem lasting_onTrack (hclosed : Closed code raws) : Lasting (OnTrack code raws) where
  same := OnTrack.same
  step view _ h := h.step hclosed view
  handler h hp := ⟨h.loaded, h.handler _ hp, h.restart, h.handler, h.callStack⟩
  stop h := ⟨h.loaded, h.restart, h.restart, h.handler, h.callStack⟩

theorem onTrack_deploy {container : Container} (hclosed : Closed container.code raws)
    (creator : Address) (funding : Word) (height : UInt32) :
    OnTrack container.code raws (Chain.deploy container creator funding height).machine where
  loaded := rfl
  pc := boundary_zero hclosed.decodes
  restart := boundary_zero hclosed.decodes
  handler _ h := nomatch h
  callStack _ h := nomatch h

end

/-! ## Assembled code -/

/-- The operand is an offset or an address that is not a label. -/
def OperandWith.isExact {O A : Type} : OperandWith (Ref O) (Ref A) → Bool
  | .offset (.exact _) => true
  | .address (.exact _) => true
  | _ => false

/-- All offsets and addresses of a draft are labels. -/
def Draft.Symbolic (d : Draft) : Prop := ∀ o ∈ d.operands, o.isExact = false

instance (d : Draft) : Decidable d.Symbolic := inferInstanceAs (Decidable (∀ o ∈ d.operands, _))

section

variable {d : Draft} {labels : Labels} {position target : Nat} {i : Instr}

theorem Draft.Symbolic.label_of_branchTarget (h : d.Symbolic) (hb : d.Becomes labels position i)
    (ht : (i.raw position).branchTarget? = some target) :
    ∃ name, labels.get? name = some target := by
  obtain ⟨o, ho, ht⟩ := List.exists_of_findSome?_eq_some ht
  obtain ⟨p, hp, hlift⟩ := hb.exists_mem_of_mem ho
  cases hlift with
  | slot | value | function | address => cases ht
  | @offset ref o hdistance =>
    cases ref with
    | exact o => cases h _ hp
    | label name =>
      obtain ⟨q, hq, hdistance⟩ := hdistance
      have hposition : (target : Int) = position + o.toInt := eq_of_positionAfter? ht
      obtain rfl : target = q := by omega
      exact ⟨name, hq⟩

theorem Draft.Symbolic.label_of_codeTarget (h : d.Symbolic) (hb : d.Becomes labels position i)
    (ht : (i.raw position).codeTarget? = some target) :
    ∃ name, labels.get? name = some target := by
  obtain ⟨o, ho, ht⟩ := List.exists_of_findSome?_eq_some ht
  obtain ⟨p, hp, hlift⟩ := hb.exists_mem_of_mem ho
  cases hlift with
  | slot | value | function | offset => cases ht
  | @address ref a haddress =>
    cases ref with
    | exact a => cases h _ hp
    | label name =>
      cases ht
      exact ⟨name, haddress⟩

end

/-- The raw instructions of emissions in a row are those of their positions. -/
theorem Emission.exists_of_mem_rawsFrom {es : List Emission} (h : LaidOut 0 es) {r : RawInstr}
    (hr : r ∈ Instr.rawsFrom 0 (es.map Emission.instr)) :
    ∃ x ∈ es, r = x.instr.raw x.position := by
  obtain ⟨before, i, after, hsplit, rfl⟩ := Instr.mem_rawsFrom.mp hr
  obtain ⟨xs, ys, rfl, rfl, hys⟩ := List.map_eq_append_iff.mp hsplit
  obtain ⟨x, zs, rfl, rfl, rfl⟩ := List.map_eq_cons_iff.mp hys
  refine ⟨x, by simp, ?_⟩
  rw [h.position_eq]
  rfl

namespace Source

/-- A label of the layout pass stands between two emissions of the emit pass. -/
theorem exists_between {source : Source} {first second : Emitter} {name : String} {q : Nat}
    (hrun : ({ pass := .emit first.labels } : Emitter).run source = .ok second)
    (hplaced : ∀ name, first.labels.contains name = true → second.labels.contains name = true)
    (hq : first.labels.get? name = some q) :
    ∃ before after, source.emitted first = before ++ after ∧
      q = (Emission.code before).length := by
  obtain ⟨q', hq'⟩ := Option.isSome_iff_exists.mp (hplaced name (Labels.contains_of_get? hq))
  rcases (Emitter.grows_of_run hrun).placed name q' hq' with
    hempty | ⟨⟨before, after, hsplit, hq''⟩, hmoved⟩
  · cases hempty
  · refine ⟨before, after, hsplit, ?_⟩
    rw [hmoved first.labels q rfl hq, hq'']
    exact Nat.zero_add _

/-- A program that refers to labels only is assembled to closed code. -/
theorem closed_of_assemble {source : Source} {out : Assembled} (h : source.assemble = .ok out)
    (hlabels : ∀ first, source.layout = .ok first →
      ∀ x ∈ source.emitted first, x.draft.Symbolic) :
    ∃ raws, Closed out.code raws := by
  obtain ⟨first, second, hlayout, hrun, _, hplaced, rfl⟩ := assemble_eq_ok.mp h
  have hgrows := Emitter.grows_of_run hrun
  have hcode : second.code.toList = Emission.code (source.emitted first) := hgrows.code
  have hboundary {target : Nat} (ht : ∃ name, first.labels.get? name = some target) :
      Boundary (Emission.code (source.emitted first))
        (Instr.rawsFrom 0 ((source.emitted first).map Emission.instr)) target := by
    obtain ⟨name, hq⟩ := ht
    obtain ⟨before, after, hsplit, rfl⟩ := exists_between hrun hplaced hq
    refine boundary_iff.mpr ⟨before.map Emission.instr, after.map Emission.instr, ?_, rfl⟩
    rw [hsplit, List.map_append]
  refine ⟨Instr.rawsFrom 0 ((source.emitted first).map Emission.instr), ?_⟩
  dsimp only
  rw [hcode]
  refine ⟨Instr.decodeAll_encodeAll _, ?_, ?_⟩
  · intro r hr target ht
    obtain ⟨x, hx, rfl⟩ := Emission.exists_of_mem_rawsFrom hgrows.laidOut hr
    exact hboundary ((hlabels first hlayout x hx).label_of_branchTarget
      (hgrows.becomes first.labels rfl x hx) ht)
  · intro r hr target ht
    obtain ⟨x, hx, rfl⟩ := Emission.exists_of_mem_rawsFrom hgrows.laidOut hr
    exact hboundary ((hlabels first hlayout x hx).label_of_codeTarget
      (hgrows.becomes first.labels rfl x hx) ht)

end Source

/-! ## The law of control -/

/-- Control stays on instructions. A program that refers to labels only is assembled to code whose
branches and jumps all lead to instructions or to the end. A machine with such code, whatever its
data and whatever happens on its chain, is at a boundary between blocks and before each instruction,
and so are the places where it restarts, handles faults and returns from subroutines. So its code is
never at fault, but for coming to its end. -/
theorem control_stays_on_boundaries :
    (∀ (source : Source) (out : Assembled), source.assemble = .ok out →
      (∀ first, source.layout = .ok first → ∀ x ∈ source.emitted first, x.draft.Symbolic) →
      ∃ raws, Closed out.code raws) ∧
    ∀ (container : Container) (raws : List RawInstr), Closed container.code raws →
      ∀ (creator : Address) (funding : Word) (height : UInt32) (ops : List Operation) (c : Chain),
        (Chain.deploy container creator funding height).performAll ops = .ok c →
        OnTrack container.code raws c.machine ∧
        ∀ view m, c.Executes view m → OnTrack container.code raws m ∧
          ∀ reason m', Exec.step view m = .error (.fault (.code reason)) m' →
            reason = .endOfCode container.code.length ∧ m.pc = container.code.length := by
  refine ⟨fun source out => Source.closed_of_assemble, ?_⟩
  intro container raws hclosed creator funding height ops c hops
  have hlasting := lasting_onTrack hclosed
  have hc : OnTrack container.code raws c.machine :=
    hlasting.performAll hops (onTrack_deploy hclosed creator funding height)
  refine ⟨hc, ?_⟩
  intro view m hm
  have htrack : OnTrack container.code raws m := hlasting.executes hm hc
  exact ⟨htrack, fun reason m' hs => htrack.eq_endOfCode hclosed hs⟩

/-- A program with a handler, a restart and a subroutine that never comes back: it sleeps, and then
divides by zero. -/
def roundTrip : Source := [
  { action := .emit (.onFault (.label "caught")) },
  { action := .emit .setRestart },
  { action := .emit (.jumpSub (.label "work")) },
  { action := .place "work" },
  { action := .emit .sleepBlock },
  { action := .emit (.binary .div 0 0) },
  { action := .place "caught" },
  { action := .emit .stop }]

/-- The chain on which it is deployed, with one word of data. -/
def roundTripChain (code : Bytes) : Chain :=
  Chain.deploy ⟨⟨2, 0, 22, 1, 0, 0, 0⟩, code, .replicate 8 0⟩ ⟨.account, .replicate 20 1⟩ 5 100

theorem control_stays_on_boundaries_of_a_round_trip :
    ∃ out raws c, roundTrip.assemble = .ok out ∧ Closed out.code raws ∧
      (roundTripChain out.code).performAll [.mine, .mine] = .ok c ∧
      (c.machine.pc, c.machine.callStack, c.machine.handler) = (6, [11], some 21) ∧
      OnTrack out.code raws c.machine := by
  let out : Assembled := ⟨[0x2b, 0, 0, 0, 21, 0x30, 0x12, 0, 0, 0, 11, 0x2a, 9, 0, 0, 0, 0, 0, 0, 0,
    0, 0x29], { entries := [("caught", 21), ("work", 11)] }⟩
  have h : roundTrip.assemble = .ok out := rfl
  have hlabels : ∀ first, roundTrip.layout = .ok first →
      ∀ x ∈ roundTrip.emitted first, x.draft.Symbolic := by
    intro first hfirst
    cases hfirst
    decide
  obtain ⟨raws, hclosed⟩ := control_stays_on_boundaries.1 roundTrip out h hlabels
  have hrun : ((roundTripChain out.code).performAll [.mine, .mine]).toOption.map (fun c =>
      (c.machine.pc, c.machine.callStack, c.machine.handler)) = some (6, [11], some 21) := by
    decide +kernel
  cases hc : (roundTripChain out.code).performAll [.mine, .mine] with
  | error a =>
    rw [hc] at hrun
    cases hrun
  | ok c =>
    rw [hc] at hrun
    refine ⟨out, raws, c, h, hclosed, hc, Option.some.inj hrun, ?_⟩
    exact (control_stays_on_boundaries.2 _ raws hclosed _ 5 100 [.mine, .mine] c hc).1

end Pledge
