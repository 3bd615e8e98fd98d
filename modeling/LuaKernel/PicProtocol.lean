import Mathlib.Tactic.SplitIfs
import LuaKernel.Pic
import LuaKernel.Runs

/-! The two interrupt controllers under the kernel: `init.S` sets them up, and `handle_interrupt`
ends each interrupt it serves. -/
namespace LuaKernel.PicProtocol

open Pic Runs

/-- The port writes of `init.S`: four initialisation words for each controller, the timer, and
the masks. -/
def initCode : List (Nat × Nat) :=
  [(0x20, 0x11), (0xa0, 0x11), (0x21, 0x20), (0xa1, 0x28), (0x21, 4), (0xa1, 2), (0x21, 1),
    (0xa1, 1), (0x43, 0x36), (0x40, 0xa9), (0x40, 0x04), (0x21, 0xf8), (0xa1, 0xef)]

/-- The port writes of `handle_interrupt`; `none` is its default branch, which never returns. -/
def handleInterrupt (n : Nat) : Option (List (Nat × Nat)) :=
  if n = 13 ∨ n = 14 then some []
  else if n = 32 ∨ n = 33 then some [(0x20, 0x20)]
  else if n = 44 then some [(0xa0, 0x20), (0x20, 0x20)]
  else none

inductive Place
  | init (rest : List (Nat × Nat))
  | kernel
  | handler (rest : List (Nat × Nat))
  | hung

structure State where
  pics : Pair
  place : Place
  interruptFlag : Bool
  delivered : List Nat

inductive Label
  /-- a rising edge, on a line of the slave or of the master -/
  | raise (slave : Bool) (i : Fin 8)
  | lower (slave : Bool) (i : Fin 8)
  /-- the next port write of `init.S` or of the handler -/
  | out
  | sti
  | cli
  /-- an interrupt is delivered -/
  | deliver
  | iretq

def controller (p : Pair) (slave : Bool) : Controller := if slave then p.slave else p.master

def drive (slave : Bool) (i : Fin 8) (level : Bool) (p : Pair) : Pair :=
  Pair.sync (if slave then { p with slave := p.slave.drive i level }
    else { p with master := p.master.drive i level })

/-- Level 2 of the master is no line of its own. A line that was raised stays so until the
request is acknowledged. -/
def step (s : State) : Label → Option State
  | .raise slave i =>
    if (slave = true ∨ i.val ≠ 2) ∧ (controller s.pics slave).line i = false then
      some { s with pics := drive slave i true s.pics }
    else none
  | .lower slave i =>
    if (slave = true ∨ i.val ≠ 2) ∧ (controller s.pics slave).irr i = false then
      some { s with pics := drive slave i false s.pics }
    else none
  | .out =>
    match s.place with
    | .init ((port, value) :: rest) =>
      some { s with pics := s.pics.out port value, place := .init rest }
    | .handler ((port, value) :: rest) =>
      some { s with pics := s.pics.out port value, place := .handler rest }
    | _ => none
  | .sti =>
    match s.place with
    | .init [] | .kernel => some { s with place := .kernel, interruptFlag := true }
    | _ => none
  | .cli =>
    match s.place with
    | .kernel => some { s with interruptFlag := false }
    | _ => none
  | .deliver =>
    if s.interruptFlag then
      s.pics.acknowledge.map fun (vector, pics) =>
        ⟨pics, (handleInterrupt vector).elim .hung .handler, false, s.delivered ++ [vector]⟩
    else none
  | .iretq =>
    match s.place with
    | .handler [] => some { s with place := .kernel, interruptFlag := true }
    | _ => none

/-- Interrupts are disabled when `init.S` comes to the controllers, whatever their state. -/
def boot (master slave : Controller) : State := ⟨⟨master, slave⟩, .init initCode, false, []⟩

inductive Moves (s : State) : Label → State → Prop
  | drive (own : slave = true ∨ i ≠ 2) (level : Bool)
      (held : level = false → (controller s.pics slave).irr i = false) :
      Moves s label { s with pics := drive slave i level s.pics }
  | init (from_ : s.place = .init ((port, value) :: rest)) :
      Moves s .out { s with pics := s.pics.out port value, place := .init rest }
  | handler (from_ : s.place = .handler ((port, value) :: rest)) :
      Moves s .out { s with pics := s.pics.out port value, place := .handler rest }
  | start (from_ : s.place = .init []) :
      Moves s .sti { s with place := .kernel, interruptFlag := true }
  | flag (from_ : s.place = .kernel) (on : Bool) : Moves s label { s with interruptFlag := on }
  | deliver (on : s.interruptFlag = true)
      (acknowledged : s.pics.acknowledge = some (vector, pics)) :
      Moves s .deliver
        ⟨pics, (handleInterrupt vector).elim .hung .handler, false, s.delivered ++ [vector]⟩
  | iretq (from_ : s.place = .handler []) :
      Moves s .iretq { s with place := .kernel, interruptFlag := true }

theorem step_moves (s next : State) (moved : step s label = some next) : Moves s label next := by
  cases label with
  | raise slave i =>
    obtain ⟨⟨own,-⟩,rfl⟩ := by simpa [step] using moved
    exact .drive (by simpa [Fin.ext_iff] using own) true nofun
  | lower slave i =>
    obtain ⟨⟨own,free⟩,rfl⟩ := by simpa [step] using moved
    exact .drive (by simpa [Fin.ext_iff] using own) false fun _ => free
  | out =>
    cases place : s.place with
    | init rest =>
      cases rest with
      | nil => simp [step,place] at moved
      | cons word rest =>
        obtain rfl := by simpa [step,place] using moved
        exact .init place
    | handler rest =>
      cases rest with
      | nil => simp [step,place] at moved
      | cons word rest =>
        obtain rfl := by simpa [step,place] using moved
        exact .handler place
    | _ => simp [step,place] at moved
  | sti =>
    cases place : s.place with
    | init rest =>
      cases rest with
      | nil =>
        obtain rfl := by simpa [step,place] using moved
        exact .start place
      | cons => simp [step,place] at moved
    | kernel =>
      obtain rfl := by simpa [step,place] using moved
      rw [← place]
      exact .flag place true
    | _ => simp [step,place] at moved
  | cli =>
    cases place : s.place with
    | kernel =>
      obtain rfl := by simpa [step,place] using moved
      rw [← place]
      exact .flag place false
    | _ => simp [step,place] at moved
  | deliver =>
    cases on : s.interruptFlag with
    | false => simp [step,on] at moved
    | true =>
      obtain ⟨vector,pics,acknowledged,rfl⟩ := by simpa [step,on] using moved
      exact .deliver on acknowledged
  | iretq =>
    cases place : s.place with
    | handler rest =>
      cases rest with
      | nil =>
        obtain rfl := by simpa [step,place] using moved
        exact .iretq place
      | cons => simp [step,place] at moved
    | _ => simp [step,place] at moved

def writeMaster (c : Setup) (word : Nat × Nat) : Setup :=
  if word.1 = 0x20 then c.command word.2 else if word.1 = 0x21 then c.data word.2 else c

def writeSlave (c : Setup) (word : Nat × Nat) : Setup :=
  if word.1 = 0xa0 then c.command word.2 else if word.1 = 0xa1 then c.data word.2 else c

theorem out_master (p : Pair) (word : Nat × Nat) :
    (p.out word.1 word.2).master.toSetup = writeMaster p.master.toSetup word := by
  unfold Pair.out writeMaster
  split_ifs <;> rfl

theorem out_slave (p : Pair) (word : Nat × Nat) :
    (p.out word.1 word.2).slave.toSetup = writeSlave p.slave.toSetup word := by
  unfold Pair.out writeSlave
  split_ifs with a b c d <;> first | rfl | omega

def masterReady : Setup where
  phase := .mask
  single := false
  ic4 := true
  base := 32
  icw3 := 4
  autoEoi := false
  lowest := Fin.last 7
  imr := levels 0xf8
  isr := noLevel

def slaveReady : Setup := { masterReady with base := 40, icw3 := 2, imr := levels 0xef }

/-- Whatever the controllers were, `init.S` leaves them so. -/
theorem init_master (c : Setup) : initCode.foldl writeMaster c = masterReady := rfl
theorem init_slave (c : Setup) : initCode.foldl writeSlave c = slaveReady := rfl

theorem drive_setup (slave : Bool) (i : Fin 8) (level : Bool) (p : Pair) :
    (drive slave i level p).master.toSetup = p.master.toSetup ∧
      (drive slave i level p).slave.toSetup = p.slave.toSetup := by
  cases slave <;> exact ⟨rfl,rfl⟩

theorem drive_synced {p : Pair} (synced : p.Synced) (own : slave = true ∨ i ≠ 2) (level : Bool) :
    (drive slave i level p).Synced := by
  have latched : p.master.line 2 = true → p.master.irr 2 = true := by
    rw [synced.line,synced.irr]
    exact id
  cases slave with
  | true => exact Pair.sync_synced _ fun _ => latched
  | false =>
    have other : (2 : Fin 8) ≠ i := by simpa [eq_comm] using own
    refine Pair.sync_synced _ fun _ high => ?_
    simp only [Bool.false_eq_true,↓reduceIte,Controller.drive,Function.update_of_ne other] at high ⊢
    exact latched high

/-- A write that does not reset the master's latches. -/
theorem out_synced {p : Pair} (synced : p.Synced)
    (keeps : port = 0x20 → value.testBit 4 = false) : (p.out port value).Synced := by
  have latched : p.master.line 2 = true → p.master.irr 2 = true := by
    rw [synced.line,synced.irr]
    exact id
  refine Pair.sync_synced _ fun _ high => ?_
  by_cases command : port = 0x20
  · simp only [command,↓reduceIte,Controller.command,keeps command,Bool.false_eq_true] at high ⊢
    exact latched high
  · simp only [command,↓reduceIte] at high ⊢
    split_ifs at high ⊢ <;> exact latched high

/-- The first initialisation word of the slave: its INT falls. -/
theorem reset_synced (p : Pair) : (p.out 0xa0 0x11).Synced := by
  refine Pair.sync_synced _ fun raised => ?_
  have quiet : (p.slave.command 0x11).request = none := request_none nofun
  simp [quiet] at raised

/-- Set up as `init.S` leaves them, with these levels in service. -/
structure Serving (p : Pair) (master slave : Levels) : Prop where
  master : p.master.toSetup = { masterReady with isr := master }
  slave : p.slave.toSetup = { slaveReady with isr := slave }
  synced : p.Synced

inductive Ends : List (Nat × Nat) → Levels → Levels → Prop
  | done : Ends [] noLevel noLevel
  | master (i : Fin 8) : Ends [(0x20, 0x20)] (onlyLevel i) noLevel
  | both (i j : Fin 8) : Ends [(0xa0, 0x20), (0x20, 0x20)] (onlyLevel i) (onlyLevel j)

theorem Serving.drive {p : Pair} {first second : Levels} (serving : Serving p first second)
    (own : isSlave = true ∨ i ≠ 2) (level : Bool) :
    Serving (drive isSlave i level p) first second := by
  obtain ⟨sameMaster,sameSlave⟩ := drive_setup isSlave i level p
  exact ⟨sameMaster.trans serving.master,sameSlave.trans serving.slave,
    drive_synced serving.synced own level⟩

theorem Serving.out {p : Pair} {first second : Levels} (serving : Serving p first second)
    (ends : Ends ((port, value) :: rest) first second) :
    ∃ first' second', Serving (p.out port value) first' second' ∧ Ends rest first' second' := by
  have masterOut := out_master p (port, value)
  have slaveOut := out_slave p (port, value)
  rw [serving.master] at masterOut
  rw [serving.slave] at slaveOut
  cases ends with
  | master i =>
    have ended : writeMaster { masterReady with isr := onlyLevel i } (0x20, 0x20) =
        { masterReady with isr := noLevel } := eoi_only rfl rfl
    exact ⟨noLevel,noLevel,⟨masterOut.trans ended,slaveOut,out_synced serving.synced fun _ => rfl⟩,
      .done⟩
  | both i j =>
    have ended : writeSlave { slaveReady with isr := onlyLevel j } (0xa0, 0x20) =
        { slaveReady with isr := noLevel } := eoi_only rfl rfl
    exact ⟨onlyLevel i,noLevel,⟨masterOut,slaveOut.trans ended,out_synced serving.synced nofun⟩,
      .master i⟩

theorem masterLevel (i : Fin 8) (unmasked : levels 0xf8 i = false) : i = 0 ∨ i = 1 ∨ i = 2 := by
  revert i
  decide

theorem slaveLevel (i : Fin 8) (unmasked : levels 0xef i = false) : i = 4 := by
  revert i
  decide

theorem update_noLevel (i : Fin 8) : Function.update noLevel i true = onlyLevel i := by
  funext j
  by_cases same : j = i <;> simp [same,noLevel,onlyLevel]

def Served (vector : Nat) : Prop := vector = 32 ∨ vector = 33 ∨ vector = 44

/-- One of the master's own lines is acknowledged. -/
theorem Serving.own {p : Pair} (serving : Serving p noLevel noLevel) (other : i ≠ 2) :
    Serving (Pair.sync { p with master := p.master.acknowledge i }) (onlyLevel i) noLevel := by
  have setup := serving.master
  refine ⟨?_,serving.slave,Pair.sync_synced _ fun _ high => ?_⟩
  · simp only [Pair.sync,Controller.drive,Controller.acknowledge,setup]
    simp only [masterReady,Bool.false_eq_true,↓reduceIte,update_noLevel]
  · simp only [Controller.acknowledge,Function.update_of_ne other.symm] at high ⊢
    rwa [serving.synced.irr,← serving.synced.line]

theorem Serving.cascaded {p : Pair} (serving : Serving p noLevel noLevel) :
    Serving (Pair.sync ⟨p.master.acknowledge 2, p.slave.acknowledge 4⟩) (onlyLevel 2)
      (onlyLevel 4) := by
  have quiet : (p.slave.acknowledge 4).request = none := by
    refine request_none fun i requested => ?_
    have imr : p.slave.imr = levels 0xef := by rw [serving.slave]; rfl
    simp only [Controller.acknowledge,imr] at requested ⊢
    by_cases mouse : i = 4
    · simp [mouse] at requested
    · exact Bool.not_eq_false _ ▸ mt (slaveLevel i) mouse
  refine ⟨?_,?_,Pair.sync_synced _ fun raised => ?_⟩
  · simp only [Pair.sync,Controller.drive,Controller.acknowledge,serving.master]
    simp only [masterReady,Bool.false_eq_true,↓reduceIte,update_noLevel]
  · simp only [Pair.sync,Controller.acknowledge,serving.slave]
    simp only [slaveReady,masterReady,Bool.false_eq_true,↓reduceIte,update_noLevel]
  · simp [quiet] at raised

theorem Serving.deliver {p : Pair} (serving : Serving p noLevel noLevel)
    (acknowledged : p.acknowledge = some (vector, pics)) : Served vector ∧
      ∃ code first second, handleInterrupt vector = some code ∧ Serving pics first second ∧
        Ends code first second := by
  obtain ⟨i,requested,result⟩ := Option.map_eq_some_iff.mp acknowledged
  obtain ⟨irr,imr⟩ := request_some requested
  rw [serving.master] at imr
  have base : p.master.base = 32 := by rw [serving.master]; rfl
  have wired : p.master.icw3 = 4 := by rw [serving.master]; rfl
  rcases masterLevel i imr with rfl | rfl | rfl
  · obtain ⟨rfl,rfl⟩ := by simpa [wired,base] using result
    exact ⟨Or.inl rfl,_,_,_,rfl,serving.own (by decide),.master 0⟩
  · obtain ⟨rfl,rfl⟩ := by simpa [wired,base] using result
    exact ⟨Or.inr (Or.inl rfl),_,_,_,rfl,serving.own (by decide),.master 1⟩
  · rw [serving.synced.irr] at irr
    obtain ⟨j,behind⟩ := Option.isSome_iff_exists.mp irr
    obtain ⟨-,unmasked⟩ := request_some behind
    rw [serving.slave] at unmasked
    obtain rfl := slaveLevel j unmasked
    have slaveBase : p.slave.base = 40 := by rw [serving.slave]; rfl
    have slaveId : p.slave.icw3 = 2 := by rw [serving.slave]; rfl
    obtain ⟨rfl,rfl⟩ := by simpa [wired,slaveId,slaveBase,behind] using result
    exact ⟨Or.inr (Or.inr rfl),_,_,_,rfl,serving.cascaded,.both 2 4⟩

/-- During `init.S`: the writes done so far have acted on whatever the controllers were, and from
the second on the wire is in order. -/
structure Initialising (master slave : Setup) (p : Pair) (rest : List (Nat × Nat)) : Prop where
  written : ∃ done, initCode = done ++ rest ∧ p.master.toSetup = done.foldl writeMaster master ∧
    p.slave.toSetup = done.foldl writeSlave slave ∧ (2 ≤ done.length → p.Synced)

theorem Initialising.drive {p : Pair} (initialising : Initialising first second p rest)
    (own : slave = true ∨ i ≠ 2) (level : Bool) :
    Initialising first second (drive slave i level p) rest := by
  obtain ⟨done,split,master_,slave_,synced⟩ := initialising.written
  obtain ⟨sameMaster,sameSlave⟩ := drive_setup slave i level p
  exact ⟨done,split,sameMaster.trans master_,sameSlave.trans slave_,
    fun long => drive_synced (synced long) own level⟩

theorem Initialising.out {p : Pair} (initialising : Initialising first second p (word :: rest)) :
    Initialising first second (p.out word.1 word.2) rest := by
  obtain ⟨done,split,master_,slave_,synced⟩ := initialising.written
  have here : initCode[done.length]? = some word := by
    rw [split,List.getElem?_append_right (Nat.le_refl _)]
    simp
  refine ⟨done ++ [word],by simp [split],?_,?_,fun long => ?_⟩
  · rw [out_master,master_,List.foldl_append]
    rfl
  · rw [out_slave,slave_,List.foldl_append]
    rfl
  · by_cases early : done.length = 1
    · rw [early] at here
      obtain rfl : (0xa0, 0x11) = word := Option.some.inj here
      exact reset_synced p
    · have late : 2 ≤ done.length := by
        rw [List.length_append,List.length_singleton] at long
        omega
      have later : word ∈ initCode.drop 2 := by
        rw [← Nat.add_sub_cancel' late,← List.getElem?_drop] at here
        exact List.mem_of_getElem? here
      have noReset : ∀ word ∈ initCode.drop 2, word.1 ≠ 0x20 := by decide
      exact out_synced (synced late) fun port => absurd port (noReset word later)

def Situation (master slave : Setup) (s : State) : Prop :=
  match s.place with
  | .init rest => s.interruptFlag = false ∧ Initialising master slave s.pics rest
  | .kernel => Serving s.pics noLevel noLevel
  | .handler rest => s.interruptFlag = false ∧
      ∃ first second, Serving s.pics first second ∧ Ends rest first second
  | .hung => False

structure Good (master slave : Setup) (s : State) : Prop where
  delivered : ∀ vector ∈ s.delivered, Served vector
  situation : Situation master slave s

theorem Situation.drive (situation : Situation master_ slave_ s) (own : slave = true ∨ i ≠ 2)
    (level : Bool) :
    Situation master_ slave_ { s with pics := PicProtocol.drive slave i level s.pics } := by
  cases place : s.place with
  | init rest =>
    rw [Situation,place] at situation
    exact ⟨situation.1,situation.2.drive own level⟩
  | kernel =>
    rw [Situation,place] at situation
    exact situation.drive own level
  | handler rest =>
    rw [Situation,place] at situation
    obtain ⟨off,first,second,serving,ends⟩ := situation
    exact ⟨off,first,second,serving.drive own level,ends⟩
  | hung =>
    rw [Situation,place] at situation
    exact situation.elim

theorem Situation.enabled (situation : Situation master_ slave_ s)
    (on : s.interruptFlag = true) : Serving s.pics noLevel noLevel := by
  unfold Situation at situation
  split at situation
  · rw [situation.1] at on
    cases on
  · exact situation
  · rw [situation.1] at on
    cases on
  · exact situation.elim

theorem good_step (good : Good master slave s) (moved : step s label = some next) :
    Good master slave next := by
  obtain ⟨delivered,situation⟩ := good
  cases step_moves s next moved with
  | drive own level => exact ⟨delivered,situation.drive own level⟩
  | init from_ =>
    rw [Situation,from_] at situation
    exact ⟨delivered,situation.1,situation.2.out⟩
  | handler from_ =>
    rw [Situation,from_] at situation
    obtain ⟨off,first,second,serving,ends⟩ := situation
    exact ⟨delivered,off,serving.out ends⟩
  | start from_ =>
    rw [Situation,from_] at situation
    obtain ⟨done,split,master_,slave_,synced⟩ := situation.2.written
    rw [List.append_nil] at split
    subst split
    exact ⟨delivered,master_.trans (init_master master),slave_.trans (init_slave slave),
      synced (by decide)⟩
  | flag from_ on =>
    rw [Situation,from_] at situation
    refine ⟨delivered,?_⟩
    rw [Situation,from_]
    exact situation
  | @deliver vector pics on acknowledged =>
    have serving := situation.enabled on
    obtain ⟨served,code,first,second,handled,after,ends⟩ := serving.deliver acknowledged
    refine ⟨fun other member => ?_,?_⟩
    · rcases List.mem_append.mp member with old | new
      · exact delivered other old
      · rw [List.mem_singleton.mp new]
        exact served
    · rw [handled]
      exact ⟨rfl,first,second,after,ends⟩
  | iretq from_ =>
    rw [Situation,from_] at situation
    obtain ⟨-,first,second,serving,ends⟩ := situation
    cases ends
    exact ⟨delivered,serving⟩

def Pending (c : Controller) : Prop := ∃ i, c.irr i = true ∧ c.imr i = false

theorem Serving.request {p : Pair} (serving : Serving p noLevel noLevel)
    (pending : Pending p.master ∨ Pending p.slave) : p.master.request.isSome = true := by
  have masterLowest : p.master.lowest = 7 := by rw [serving.master]; rfl
  have masterIdle : p.master.isr = noLevel := by rw [serving.master]
  rcases pending with ⟨i,irr,imr⟩ | ⟨i,irr,imr⟩
  · exact request_isSome masterLowest masterIdle irr imr
  · have slaveLowest : p.slave.lowest = 7 := by rw [serving.slave]; rfl
    have slaveIdle : p.slave.isr = noLevel := by rw [serving.slave]
    have raised := request_isSome slaveLowest slaveIdle irr imr
    rw [← serving.synced.irr] at raised
    have unmasked : p.master.imr 2 = false := by rw [serving.master]; rfl
    exact request_isSome masterLowest masterIdle raised unmasked

/-- From any state of the controllers, along every run: only the vectors that `handle_interrupt`
serves are delivered, after each handler nothing is in service, and a request that is not masked
can be delivered as soon as interrupts are enabled. -/
theorem controllers_serve (master slave : Controller) (labels : List Label) (s : State)
    (ran : run step (boot master slave) labels = some s) :
    (∀ vector ∈ s.delivered, Served vector) ∧ s.place ≠ .hung ∧
      (s.place = .kernel ∨ s.place = .handler [] →
        s.pics.master.isr = noLevel ∧ s.pics.slave.isr = noLevel) ∧
      (s.place = .kernel → s.interruptFlag = true →
        Pending s.pics.master ∨ Pending s.pics.slave → ∃ next, step s .deliver = some next) := by
  have start : Good master.toSetup slave.toSetup (boot master slave) :=
    ⟨nofun,rfl,[],rfl,rfl,rfl,fun long => absurd long (by decide)⟩
  obtain ⟨delivered,situation⟩ :=
    run_invariant (fun _ _ _ good moved => good_step good moved) ran start
  refine ⟨delivered,fun hung => ?_,?_,fun kernel on pending => ?_⟩
  · rw [Situation,hung] at situation
    exact situation
  · rintro (kernel | ended)
    · rw [Situation,kernel] at situation
      exact ⟨by rw [situation.master],by rw [situation.slave]⟩
    · rw [Situation,ended] at situation
      obtain ⟨-,first,second,serving,ends⟩ := situation
      cases ends
      exact ⟨by rw [serving.master],by rw [serving.slave]⟩
  · rw [Situation,kernel] at situation
    obtain ⟨i,request⟩ := Option.isSome_iff_exists.mp (situation.request pending)
    exact ⟨_,by simp [step,on,Pair.acknowledge,request]; rfl⟩

def unset : Controller where
  phase := .icw3
  single := true
  ic4 := false
  base := 0
  icw3 := 0
  autoEoi := true
  lowest := Fin.last 7
  imr := noLevel
  isr := levels 0xff
  line := levels 0xff
  irr := levels 0xff

/-- The mouse moves, and its interrupt is served. -/
theorem mouse_served : ∃ s,
    run step (boot unset unset) (List.replicate 13 .out ++
      [.sti, .lower true 4, .raise true 4, .deliver, .out, .out, .iretq]) = some s ∧
    s.delivered = [44] ∧ s.pics.master.isr = noLevel ∧ s.pics.slave.isr = noLevel := by
  obtain ⟨s,ran,vectors,place⟩ : ∃ s, run step (boot unset unset) (List.replicate 13 .out ++
      [.sti, .lower true 4, .raise true 4, .deliver, .out, .out, .iretq]) = some s ∧
      s.delivered = [44] ∧ s.place = .kernel := ⟨_,rfl,rfl,rfl⟩
  exact ⟨s,ran,vectors,(controllers_serve unset unset _ s ran).2.2.1 (Or.inl place)⟩

end LuaKernel.PicProtocol
