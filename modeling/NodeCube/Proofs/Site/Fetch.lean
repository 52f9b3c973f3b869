import NodeCube.Execution
import NodeCube.Outcome

/-!
# Reading from a target

What `Execution.fetch` does to a site, as one equation (`Execution.fetch_eq`). Only `ANY` asks that
no word was taken at the site yet. From `ACC` and `NIL` the word is there at once. From all other
targets the node first files its read requests (`Site.attend`), then looks for a port with a word
ready (`Site.chosen?`), and if there is one takes the word there (`Site.grab`).
-/

namespace NodeCube

namespace Target

/-- Whether a read from a target listens at port `p`, when `last` is the port that `ANY` chose
last. -/
def hears (last : Option Port) (p : Port) : Target → Bool
  | .port q => q == p
  | .any => true
  | .last => last == some p
  | .acc | .bak | .nil => false

/-- The word of a target that never makes a node wait. -/
def instant? (r : Registers) : Target → Option Word
  | .acc => some r.acc
  | .nil => some 0
  | .bak | .port _ | .any | .last => none

end Target

namespace Port

theorem all_nodup : all.Nodup := by decide

/-- The first port in `all` with a property that only `p` can have. -/
theorem find?_all_of_unique {c : Port → Bool} {p : Port} (h : ∀ q, c q = true → q = p) :
    all.find? c = if c p then some p else none := by
  split
  · rename_i hp
    cases hf : all.find? c with
    | none => exact absurd hp (by simpa using List.find?_eq_none.mp hf p (mem_all p))
    | some q => rw [h q (List.find?_some hf)]
  · rename_i hp
    refine List.find?_eq_none.mpr fun q _ hq => hp ?_
    rw [← h q hq]
    exact hq

end Port

namespace Site

variable (s : Site)

theorem ext_pipes {s t : Site} (hr : s.registers = t.registers) (hp : s.passed = t.passed)
    (hi : ∀ p, s.incoming p = t.incoming p) (ho : ∀ p, s.outgoing p = t.outgoing p) : s = t := by
  obtain ⟨r, ⟨i, o⟩, w⟩ := s
  obtain ⟨r', ⟨i', o'⟩, w'⟩ := t
  obtain rfl : r = r' := hr
  obtain rfl : w = w' := hp
  obtain rfl : i = i' := PerPort.ext_get hi
  obtain rfl : o = o' := PerPort.ext_get ho
  rfl

/-- No word was taken since the last tick. -/
def Untaken : Prop := ∀ p, (s.incoming p).taken = false

/-- Changes the pipes that the node reads from. -/
def mapIncoming (g : Port → Pipe → Pipe) : Site :=
  { s with ports := { s.ports with incoming := PerPort.ofFn fun p => g p (s.incoming p) } }

@[simp] theorem registers_mapIncoming (g : Port → Pipe → Pipe) :
    (s.mapIncoming g).registers = s.registers := rfl

@[simp] theorem passed_mapIncoming (g : Port → Pipe → Pipe) :
    (s.mapIncoming g).passed = s.passed := rfl

@[simp] theorem outgoing_mapIncoming (g : Port → Pipe → Pipe) (p : Port) :
    (s.mapIncoming g).outgoing p = s.outgoing p := rfl

@[simp] theorem incoming_mapIncoming (g : Port → Pipe → Pipe) (p : Port) :
    (s.mapIncoming g).incoming p = g p (s.incoming p) := by simp [incoming, mapIncoming]

theorem incoming_setIncoming (p q : Port) (pipe : Pipe) :
    (s.setIncoming p pipe).incoming q = if q = p then pipe else s.incoming q := by
  split
  · rename_i e; rw [e, incoming_setIncoming_self]
  · rename_i e; exact incoming_setIncoming_of_ne s pipe e

/-- Whether the node, when it starts to read from `t`, files a request at port `p`. While it
listens anywhere already, `ANY` files none. -/
def opens (t : Target) (p : Port) : Bool :=
  t.hears s.registers.last p && !(t == .any && Port.all.any fun q => (s.incoming q).reading)

/-- Files the requests for a read from `t`. -/
def attend (t : Target) : Site :=
  s.mapIncoming fun p pipe => { pipe with reading := pipe.reading || s.opens t p }

/-- The port from which a read from `t` gets its word, if one is ready. -/
def chosen? (t : Target) : Option Port :=
  Port.all.find? fun p => t.hears s.registers.last p && (s.incoming p).ready

/-- Stops listening at all ports but `p`, which `ANY` remembers. -/
def hearOnly (p : Port) : Site :=
  { s.mapIncoming fun q pipe => if q = p then pipe else { pipe with reading := false } with
    registers := { s.registers with last := some p } }

/-- Takes the word at port `p` for a read from `t`. `ANY` remembers the port and stops listening
at the others. -/
def grab (t : Target) (p : Port) : Site :=
  let v := (s.incoming p).value
  { s.mapIncoming fun q pipe =>
      if q = p then { pipe with taken := true }
      else if t = .any then { pipe with reading := false } else pipe with
    registers := if t = .any then { s.registers with last := some p } else s.registers
    passed := s.passed ++ [.took p v, .read t v] }

@[simp] theorem registers_attend (t : Target) : (s.attend t).registers = s.registers := rfl

@[simp] theorem passed_attend (t : Target) : (s.attend t).passed = s.passed := rfl

@[simp] theorem outgoing_attend (t : Target) (p : Port) :
    (s.attend t).outgoing p = s.outgoing p := rfl

theorem incoming_attend (t : Target) (p : Port) : (s.attend t).incoming p =
    { s.incoming p with reading := (s.incoming p).reading || s.opens t p } := by simp [attend]

@[simp] theorem passed_hearOnly (p : Port) : (s.hearOnly p).passed = s.passed := rfl

theorem incoming_hearOnly (p q : Port) : (s.hearOnly p).incoming q =
    if q = p then s.incoming q else { s.incoming q with reading := false } := by
  simp [hearOnly, incoming, mapIncoming]

@[simp] theorem registers_grab (t : Target) (p : Port) : (s.grab t p).registers =
    if t = .any then { s.registers with last := some p } else s.registers := rfl

@[simp] theorem passed_grab (t : Target) (p : Port) : (s.grab t p).passed =
    s.passed ++ [.took p (s.incoming p).value, .read t (s.incoming p).value] := rfl

@[simp] theorem outgoing_grab (t : Target) (p q : Port) :
    (s.grab t p).outgoing q = s.outgoing q := rfl

theorem incoming_grab (t : Target) (p q : Port) : (s.grab t p).incoming q =
    if q = p then { s.incoming q with taken := true }
    else if t = .any then { s.incoming q with reading := false } else s.incoming q := by
  simp [grab, incoming, mapIncoming]

theorem chosen?_eq_some {t : Target} {p : Port} (h : s.chosen? t = some p) :
    t.hears s.registers.last p = true ∧ (s.incoming p).ready = true := by
  have := List.find?_some h
  simpa only [Bool.and_eq_true] using this

/-- Stops listening and takes the word of the port that `ANY` chose. -/
theorem grab_any (p : Port) : s.grab .any p = (((s.hearOnly p).setIncoming p
    { (s.hearOnly p).incoming p with taken := true }).note
      (.took p ((s.hearOnly p).incoming p).value)).note
        (.read .any ((s.hearOnly p).incoming p).value) := by
  refine ext_pipes rfl ?_ (fun q => ?_) fun _ => rfl
  · simp [incoming_hearOnly]
  · rw [incoming_note, incoming_note, incoming_setIncoming, incoming_grab, incoming_hearOnly]
    split
    · rename_i e
      subst e
      simp
    · simp [incoming_hearOnly, *]

theorem grab_of_ne_any {t : Target} (ht : t ≠ .any) (p : Port) : s.grab t p =
    ((s.setIncoming p { s.incoming p with taken := true }).note
      (.took p (s.incoming p).value)).note (.read t (s.incoming p).value) := by
  refine ext_pipes ?_ ?_ (fun q => ?_) fun _ => rfl
  · rw [registers_grab, if_neg ht]
    rfl
  · simp
  · rw [incoming_note, incoming_note, incoming_setIncoming, incoming_grab, if_neg ht]
    split
    · rename_i e
      rw [e]
    · rfl

section OnePort

variable {s} {t : Target} {p : Port} (hh : ∀ q, t.hears s.registers.last q = (p == q))
include hh

/-- Starting to listen at one port. -/
theorem attend_of_hears (ht : t ≠ .any) :
    s.attend t = s.setIncoming p { s.incoming p with reading := true } := by
  refine ext_pipes rfl rfl (fun q => ?_) fun _ => rfl
  have hta : (t == .any) = false := by simpa using ht
  by_cases e : q = p
  · subst e
    simp [attend, opens, hh, hta]
  · have hqp : (p == q) = false := by simpa using Ne.symm e
    simp [attend, opens, hh, hqp, incoming_setIncoming_of_ne _ _ e]

/-- The only port that can be chosen. -/
theorem chosen?_of_hears : s.chosen? t = if (s.incoming p).ready then some p else none := by
  have hq : ∀ q, (t.hears s.registers.last q && (s.incoming q).ready) = true → q = p := by
    intro q hq
    have hpq := (Bool.and_eq_true_iff.mp hq).1
    rw [hh, beq_iff_eq] at hpq
    exact hpq.symm
  refine (Port.find?_all_of_unique hq).trans ?_
  rw [hh, beq_self_eq_true, Bool.true_and]

end OnePort

end Site

namespace Action

/-- A round over ports that changes one pipe at a time. -/
theorem forM_incoming {f : Port → Action PUnit} {g : Port → Pipe → Pipe}
    (hf : ∀ p s, f p s = .ok () (s.setIncoming p (g p (s.incoming p)))) {l : List Port}
    (hl : l.Nodup) (s : Site) :
    l.forM f s = .ok () (s.mapIncoming fun p pipe => if p ∈ l then g p pipe else pipe) := by
  induction l generalizing s with
  | nil => exact congrArg _ (Site.ext_pipes rfl rfl (by simp) fun _ => rfl)
  | cons q l ih =>
    obtain ⟨hq, hl⟩ := List.nodup_cons.mp hl
    refine (Outcome.bind_ok (hf q s)).trans ((ih hl _).trans (congrArg _ ?_))
    refine Site.ext_pipes rfl rfl (fun p => ?_) fun _ => rfl
    by_cases e : p = q
    · subst e
      simp [hq]
    · simp [e, Site.incoming_setIncoming]

end Action

namespace Port

theorem beginRead_of_free {p : Port} {s : Site} (h : (s.incoming p).reading = false) :
    p.beginRead s = .ok () (s.setIncoming p { s.incoming p with reading := true }) := by
  simp [beginRead, Pipe.beginRead?, h]

theorem read_of_ready {p : Port} {s : Site} (h : (s.incoming p).ready = true) :
    p.read s = .ok (s.incoming p).value ((s.setIncoming p
      { s.incoming p with taken := true }).note (.took p (s.incoming p).value)) := by
  simp [read, Pipe.take?, h]

end Port

namespace AnyPort

/-- A port where the node listens already is passed over. -/
theorem listen_eq (p : Port) (s : Site) :
    (do let busy ← p.isReading; if busy then pure () else p.beginRead : Action PUnit) s =
      .ok () (s.setIncoming p { s.incoming p with reading := true }) := by
  change (if (s.incoming p).reading then pure () else p.beginRead : Action PUnit) s = _
  cases hr : (s.incoming p).reading with
  | false => exact Port.beginRead_of_free hr
  | true =>
    change EStateM.Result.ok () s = _
    refine congrArg _ (Site.ext_pipes rfl rfl (fun q => ?_) fun _ => rfl)
    rw [Site.incoming_setIncoming]
    split
    · rename_i e; subst e; simp [← hr]
    · rfl

theorem beginRead_eq (s : Site) :
    beginRead s = .ok () (s.mapIncoming fun _ pipe => { pipe with reading := true }) := by
  refine (Action.forM_incoming (g := fun _ pipe => { pipe with reading := true }) listen_eq
    Port.all_nodup s).trans ?_
  simp only [Port.mem_all, if_true]

theorem settleOn_run (p : Port) (s : Site) : settleOn p s =
    .ok () ((s.setRegisters { s.registers with last := some p }).mapIncoming
      fun q pipe => if q = p then pipe else pipe.cancelRead) := by
  have hl : (Port.all.filter (· != p)).Nodup := Port.all_nodup.filter _
  have hf := Action.forM_incoming (f := Port.cancelRead) (g := fun _ => Pipe.cancelRead)
    (fun _ _ => rfl) hl (s.setRegisters { s.registers with last := some p })
  refine Eq.trans hf (congrArg _ (Site.ext_pipes rfl rfl (fun q => ?_) fun _ => rfl))
  rw [Site.incoming_mapIncoming, Site.incoming_mapIncoming]
  by_cases e : q = p
  · simp [e]
  · simp [e, Port.mem_all]

/-- While no word was taken, withdrawing a request does nothing else. -/
theorem settleOn_eq {s : Site} (hu : s.Untaken) (p : Port) :
    settleOn p s = .ok () (s.hearOnly p) := by
  refine (settleOn_run p s).trans (congrArg _ (Site.ext_pipes rfl rfl (fun q => ?_) fun _ => rfl))
  rw [Site.incoming_mapIncoming, Site.incoming_hearOnly, Site.incoming_setRegisters,
    Pipe.cancelRead_of_not_taken (hu q)]

theorem read_of_last {s : Site} {p : Port} (hl : s.registers.last = some p)
    (h : (s.incoming p).ready = true) : read s = p.read s := by
  have hp : p.canTransfer s = .ok true s := congrArg (EStateM.Result.ok · _) h
  refine (Outcome.bind_ok (s := s) rfl).trans ?_
  rw [hl]
  exact Outcome.bind_ok hp

end AnyPort

namespace Target

variable {s : Site}

theorem atLast_some {α : Type} {d : Action α} {a : Port → Action α} {p : Port}
    (h : s.registers.last = some p) : atLast d a s = a p s := by
  refine (Outcome.bind_ok (s := s) rfl).trans ?_
  rw [h]

theorem atLast_none {α : Type} {d : Action α} {a : Port → Action α}
    (h : s.registers.last = none) : atLast d a s = d s := by
  refine (Outcome.bind_ok (s := s) rfl).trans ?_
  rw [h]

end Target

namespace Execution

variable {t : Target} {s s₁ s₂ : Site}

theorem fetch_run {b c : Bool} (hr : t.isReading s = .ok b s)
    (hb : (if b then pure () else t.beginRead : Action Unit) s = .ok () s₁)
    (hc : t.canTransfer s₁ = .ok c s₂) :
    fetch t s = (if c then (do let v ← t.read; return some v) else return none : Action _) s₂ := by
  refine (Outcome.bind_ok hr).trans ?_
  cases b with
  | true =>
    cases hb
    exact Outcome.bind_ok hc
  | false => exact (Outcome.bind_ok hb).trans (Outcome.bind_ok hc)

theorem fetch_of_word {b : Bool} {s₃ : Site} {v : Word} (hr : t.isReading s = .ok b s)
    (hb : (if b then pure () else t.beginRead : Action Unit) s = .ok () s₁)
    (hc : t.canTransfer s₁ = .ok true s₂) (hw : t.word s₂ = .ok v s₃) :
    fetch t s = .ok (some v) (s₃.note (.read t v)) := by
  have hread : t.read s₂ = .ok v (s₃.note (.read t v)) := Outcome.bind_ok hw
  exact (fetch_run hr hb hc).trans (Outcome.bind_ok hread)

/-- A read that goes through one port only. -/
theorem fetch_port_eq {p : Port} (hh : ∀ q, t.hears s.registers.last q = (p == q))
    (ha : t ≠ .any)
    (hr : t.isReading s = p.isReading s)
    (hb : t.beginRead s = p.beginRead s)
    (hc : ∀ s', s'.registers = s.registers → t.canTransfer s' = p.canTransfer s')
    (hw : ∀ s', s'.registers = s.registers → t.word s' = p.read s') :
    fetch t s = match (s.attend t).chosen? t with
      | none => .ok none (s.attend t)
      | some p => .ok (some (s.incoming p).value) ((s.attend t).grab t p) := by
  have hbegin : (if (s.incoming p).reading then pure () else t.beginRead : Action Unit) s =
      .ok () (s.attend t) := by
    rw [Site.attend_of_hears hh ha]
    refine Eq.trans ?_ (AnyPort.listen_eq p s)
    change _ = (if (s.incoming p).reading then pure () else p.beginRead : Action PUnit) s
    split
    · rfl
    · exact hb
  have hcan : t.canTransfer (s.attend t) = .ok ((s.attend t).incoming p).ready (s.attend t) :=
    hc _ rfl
  rw [Site.chosen?_of_hears (s := s.attend t) hh]
  cases hready : ((s.attend t).incoming p).ready with
  | false =>
    rw [hready] at hcan
    exact fetch_run hr hbegin hcan
  | true =>
    rw [hready] at hcan
    have hword := (hw (s.attend t) rfl).trans (Port.read_of_ready hready)
    refine (fetch_of_word hr hbegin hcan hword).trans ?_
    have hv : ((s.attend t).incoming p).value = (s.incoming p).value := by simp [Site.attend]
    exact Outcome.ok_congr (congrArg some hv) ((s.attend t).grab_of_ne_any ha p).symm

/-- Listening at all ports, unless the node listens already. -/
theorem beginRead_any (s : Site) : (if Port.all.any fun q => (s.incoming q).reading then pure ()
    else Target.any.beginRead : Action Unit) s = .ok () (s.attend .any) := by
  cases h : Port.all.any fun q => (s.incoming q).reading with
  | true =>
    refine congrArg _ (Site.ext_pipes rfl rfl (fun p => ?_) fun _ => rfl)
    simp [Site.incoming_attend, Site.opens, h]
  | false =>
    refine (AnyPort.beginRead_eq s).trans (congrArg _ (Site.ext_pipes rfl rfl (fun p => ?_)
      fun _ => rfl))
    simp [Site.incoming_attend, Site.opens, Target.hears, h]

/-- A read that listens at all ports. -/
theorem fetch_any_eq (hu : s.Untaken) :
    fetch .any s = match (s.attend .any).chosen? .any with
      | none => .ok none (s.attend .any)
      | some p => .ok (some (s.incoming p).value) ((s.attend .any).grab .any p) := by
  have hr : Target.any.isReading s =
      .ok (Port.all.any fun q => (s.incoming q).reading) s := rfl
  have hbegin := beginRead_any s
  have hu' : (s.attend .any).Untaken := fun p => by rw [Site.incoming_attend]; exact hu p
  have hchosen : (s.attend .any).chosen? .any = AnyPort.readyPort? (s.attend .any) := by
    simp [Site.chosen?, AnyPort.readyPort?, Target.hears]
  cases hready : (s.attend .any).chosen? .any with
  | none =>
    have hcan : Target.any.canTransfer (s.attend .any) = .ok false (s.attend .any) := by
      refine (Outcome.bind_ok (x := none) ?_).trans rfl
      exact congrArg (EStateM.Result.ok · _) (hchosen.symm.trans hready)
    exact fetch_run hr hbegin hcan
  | some p =>
    have hp := ((s.attend .any).chosen?_eq_some hready).2
    have hcan : Target.any.canTransfer (s.attend .any) = .ok true ((s.attend .any).hearOnly p) := by
      refine (Outcome.bind_ok (x := some p) ?_).trans (Outcome.bind_ok (AnyPort.settleOn_eq hu' p))
      exact congrArg (EStateM.Result.ok · _) (hchosen.symm.trans hready)
    have hp' : (((s.attend .any).hearOnly p).incoming p).ready = true := by
      simpa [Site.incoming_hearOnly] using hp
    have hword := (AnyPort.read_of_last rfl hp').trans (Port.read_of_ready hp')
    refine (fetch_of_word hr hbegin hcan hword).trans ?_
    have hv : (((s.attend .any).hearOnly p).incoming p).value = (s.incoming p).value := by
      simp [Site.incoming_hearOnly, Site.incoming_attend]
    exact Outcome.ok_congr (congrArg some hv) ((s.attend .any).grab_any p).symm

/-- `LAST` without a port listens nowhere. -/
theorem fetch_last_of_none (h : s.registers.last = none) : fetch .last s = .ok none s := by
  have hr : Target.last.isReading s = .ok true s := Target.atLast_none h
  have hc : Target.last.canTransfer s = .ok false s := Target.atLast_none h
  exact fetch_run hr rfl hc

/-- What a read does, unless it is from `BAK`. -/
theorem fetch_eq (ht : t ≠ .bak) (hu : t = .any → s.Untaken) :
    fetch t s = match t.instant? s.registers with
      | some v => .ok (some v) (s.note (.read t v))
      | none => match (s.attend t).chosen? t with
        | none => .ok none (s.attend t)
        | some p => .ok (some (s.incoming p).value) ((s.attend t).grab t p) := by
  cases t with
  | acc => rfl
  | bak => exact absurd rfl ht
  | nil => rfl
  | port p =>
    exact fetch_port_eq (p := p) (fun q => by simp [Target.hears]) (by simp) rfl rfl
      (fun _ _ => rfl) fun _ _ => rfl
  | any => exact fetch_any_eq (hu rfl)
  | last =>
    cases hl : s.registers.last with
    | none =>
      have hs : s.attend .last = s := by
        refine Site.ext_pipes rfl rfl (fun q => ?_) fun _ => rfl
        simp [Site.incoming_attend, Site.opens, Target.hears, hl]
      have hc : s.chosen? .last = none := by simp [Site.chosen?, Target.hears, hl]
      rw [hs, hc]
      exact fetch_last_of_none hl
    | some p =>
      exact fetch_port_eq (p := p) (fun q => by simp [Target.hears, hl]) (by simp)
        (Target.atLast_some hl) (Target.atLast_some hl)
        (fun _ hs => Target.atLast_some (hs ▸ hl)) fun _ hs => Target.atLast_some (hs ▸ hl)

end Execution

end NodeCube
