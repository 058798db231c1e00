import Tortue.Adapters.ReadTasks
import Tortue.Properties.Integrity
import Tortue.Properties.ReadBalance

namespace Tortue

open Collections

namespace SwarmIo

variable {sha1 : Sha1} {clientId : PeerId} {m : Metainfo} {io : SwarmIo}

def Executes (id : UploadReadId) (e : Event SwarmIo (Move × Entropy) Effect) : Prop :=
  (∃ accepts, e.input.1 = .handle accepts) ∧ e.before.phase = .handling ∧
    ∃ range rest, e.before.outputs = .readForUpload id range :: rest

structure Agreed (trace : Run) (c : Core) : Prop where
  tally : ∀ id, (c.readHandles.contains id).toNat + c.outputs.countP (Output.opens id) =
    c.swarm.waiting id + c.outputs.count (.cancelUploadRead id)
  sole : ∀ id range, .readForUpload id range ∈ c.outputs → c.outputs = [.readForUpload id range]
  stacked : ∀ id range, .readForUpload id range ∈ c.outputs → c.swarm.Issued id range
  executed : ∀ id, 0 < c.swarm.waiting id → 0 < c.outputs.countP (Output.opens id) ∨
    ∃ f ∈ trace, Executes id f

def Tasked (io : SwarmIo) : Prop :=
  ∀ k t, io.reads.get k = some t → io.swarm.Issued t.id t.range

theorem selecting_of_resting {phase : Phase} (hbusy : phase.busy = false)
    (hover : phase.over = false) : phase = .selecting := by
  cases phase with
  | selecting => rfl
  | handling | flushing | finished => contradiction

variable {i : Move × Entropy} {c : Core} {effects : List Effect} {trace : Run}

namespace Agreed

theorem later (h : Agreed trace c) (e : Event SwarmIo (Move × Entropy) Effect) :
    Agreed (e :: trace) c :=
  ⟨h.tally, h.sole, h.stacked, fun id hw => (h.executed id hw).imp_right fun ⟨f, hf, hex⟩ =>
    ⟨f, List.mem_cons_of_mem _ hf, hex⟩⟩

theorem unopened (h : Agreed trace c) {o : Output} {rest : List Output}
    (hout : c.outputs = o :: rest) (ho : ∀ id range, o ≠ .readForUpload id range)
    (id : UploadReadId) (range : BlockRange) : .readForUpload id range ∉ c.outputs := by
  intro hin
  have hsole := h.sole id range hin
  rw [hout, List.cons.injEq] at hsole
  exact ho id range hsole.1

theorem restack (h : Agreed trace c) {outputs : List Output}
    (hnone : ∀ id range, .readForUpload id range ∉ c.outputs)
    (hnone' : ∀ id range, .readForUpload id range ∉ outputs)
    (hcancels : ∀ id, outputs.count (.cancelUploadRead id) =
      c.outputs.count (.cancelUploadRead id)) (phase : Phase) (queue : List DiskCommand) :
    Agreed trace { c with outputs, phase, queue } where
  tally id := by
    have htally := h.tally id
    rw [Swarm.countP_opens_of_not_mem (hnone id)] at htally
    simp only [Swarm.countP_opens_of_not_mem (hnone' id), hcancels]
    exact htally
  sole id range hin := absurd hin (hnone' id range)
  stacked id range hin := absurd hin (hnone' id range)
  executed id hw := by
    rcases h.executed id hw with hopens | hex
    · rw [Swarm.countP_opens_of_not_mem (hnone id)] at hopens
      contradiction
    · exact .inr hex

theorem absorb (h : Agreed trace io.core) (hr : Swarm.Reachable sha1 clientId m io.swarm)
    (inp : Input × Entropy) (rest : List Output) (readHandles : HashMap UploadReadId Nat)
    (phase : Phase) (hnone : ∀ id range, .readForUpload id range ∉ io.outputs)
    (hrest : ∀ id range, .readForUpload id range ∉ rest)
    (hopens : ∀ id range, .readForUpload id range ∈ (io.swarm.step sha1 inp).2 → rest = [])
    (hheld : ∀ id, (readHandles.contains id).toNat +
      (Swarm.takes id ⟨io.swarm, inp, (io.swarm.step sha1 inp).2⟩).toNat =
        io.swarm.waiting id + rest.count (.cancelUploadRead id)) :
    Agreed trace { io.core with
      swarm := (io.swarm.step sha1 inp).1
      outputs := (io.swarm.step sha1 inp).2 ++ rest
      phase
      readHandles } := by
  have hacc := Swarm.reachable_accounted hr
  have hbalance := fun id => Swarm.balance_step sha1 hacc inp id
  simp only [Swarm.openings, Swarm.closings] at hbalance
  refine ⟨fun id => ?_, fun id range hin => ?_, fun id range hin => ?_, fun id hw => ?_⟩
  · have hid := hheld id
    have hstep := hbalance id
    simp only [List.countP_append, List.count_append, Swarm.countP_opens_of_not_mem (hrest id)]
    omega
  · rcases List.mem_append.mp hin with hnew | hold
    · simp only [hopens id range hnew, List.append_nil]
      exact Swarm.request_sole hnew
    · exact absurd hold (hrest id range)
  · rcases List.mem_append.mp hin with hnew | hold
    · have hissued := Swarm.issued_of_output (Swarm.reachable_uploadQueue hr)
        (Swarm.sharing_step sha1 hacc inp) ((mem_served rfl).mpr hnew)
      refine ⟨?_, hissued.2.2⟩
      have hnext := hissued.2.1
      simp only [Swarm.readQueue] at hnext
      rw [hnext, hissued.1]
      exact Nat.lt_succ_self _
    · exact absurd hold (hrest id range)
  · rcases Nat.eq_zero_or_pos (io.swarm.waiting id) with hzero | hpos
    · have hstep := hbalance id
      simp only at hw hstep
      refine .inl ?_
      rw [List.countP_append]
      omega
    · rcases h.executed id hpos with hstacked | hex
      · obtain ⟨range, hin⟩ := Swarm.openings_pos_iff.mp hstacked
        exact absurd hin (hnone id range)
      · exact .inr hex

end Agreed

theorem takes_outside {inp : Input × Entropy} (h : inp.1.outside = true) (id : UploadReadId)
    (outputs : List Output) : Swarm.takes id ⟨io.swarm, inp, outputs⟩ = false := by
  refine Swarm.takes_eq_false fun range data hi => ?_
  simp only at hi
  rw [hi] at h
  contradiction

theorem Agreed.counted (h : Agreed trace io.core) (id : UploadReadId) :
    (io.readHandles.contains id).toNat + io.outputs.countP (Output.opens id) =
      io.swarm.waiting id + io.outputs.count (.cancelUploadRead id) :=
  h.tally id

theorem Agreed.idle (h : Agreed trace io.core) (hnil : io.outputs = []) (id : UploadReadId) :
    (io.readHandles.contains id).toNat = io.swarm.waiting id := by
  have htally := h.counted id
  rw [hnil] at htally
  simpa using htally

theorem Agreed.takes_held (h : Agreed trace io.core) (htasked : Tasked io)
    (hnil : io.outputs = []) {task : Nat} {read : ReadTask} {data : Bytes} {env : Entropy}
    {outputs : List Output} (hget : io.reads.get task = some read)
    (hheld : io.readHandles.contains read.id = true) :
    Swarm.takes read.id
      ⟨io.swarm, (.uploadReadCompleted read.id read.range data, env), outputs⟩ = true := by
  have hidle := h.idle hnil read.id
  rw [hheld, Bool.toNat_true] at hidle
  have hpos : 0 < io.swarm.waiting read.id := by omega
  obtain ⟨range, before, hpending, hid⟩ := Swarm.waiting_pos_iff.mp hpos
  obtain rfl := (htasked task read hget).2 range before hpending hid
  exact Swarm.takes_iff.mpr ⟨read.range, data, before, rfl, hpending, hid⟩

theorem Agreed.complete (h : Agreed trace io.core) (hr : Swarm.Reachable sha1 clientId m io.swarm)
    (htasked : Tasked io) (hnil : io.outputs = []) {task : Nat} {read : ReadTask} {data : Bytes}
    (hget : io.reads.get task = some read) (hheld : io.readHandles.contains read.id = true)
    (env : Entropy) (id : UploadReadId) :
    ((io.readHandles.remove read.id).contains id).toNat +
      (Swarm.takes id ⟨io.swarm, (.uploadReadCompleted read.id read.range data, env),
        (io.swarm.step sha1 (.uploadReadCompleted read.id read.range data, env)).2⟩).toNat =
      io.swarm.waiting id := by
  have hidle := h.idle hnil id
  rw [HashMap.contains_remove]
  by_cases hid : id = read.id
  · subst hid
    have hle := Swarm.waiting_le hr read.id
    rw [h.takes_held htasked hnil hget hheld]
    rw [hheld, Bool.toNat_true] at hidle
    simp only [ne_eq, not_true_eq_false, decide_false, Bool.false_and, Bool.toNat_false,
      Bool.toNat_true]
    omega
  · have hother : Swarm.takes id ⟨io.swarm, (.uploadReadCompleted read.id read.range data, env),
        (io.swarm.step sha1 (.uploadReadCompleted read.id read.range data, env)).2⟩ = false := by
      refine Swarm.takes_eq_false fun range d hi => ?_
      rw [Input.uploadReadCompleted.injEq] at hi
      exact hid hi.1.symm
    rw [hother]
    simpa [hid] using hidle

theorem Agreed.opened (h : Agreed trace io.core) (hr : Swarm.Reachable sha1 clientId m io.swarm)
    {id : UploadReadId} {range : BlockRange} {rest : List Output}
    (hmove : ∃ accepts, i.1 = .handle accepts) (hphase : io.phase = .handling)
    (hout : io.outputs = .readForUpload id range :: rest) :
    Agreed (⟨io, i, effects⟩ :: trace)
      { io.core with outputs := rest, readHandles := io.readHandles.insert id io.nextTask } := by
  have hsole : io.outputs = [.readForUpload id range] := h.sole id range (by simp [core, hout])
  obtain rfl : rest = [] := by simpa [hout] using hsole
  refine ⟨fun id' => ?_, by simp, by simp, fun id' hw => .inr ?_⟩
  · have htally := h.tally id'
    have hle := Swarm.waiting_le hr id'
    simp only [core, hout, List.countP_singleton, Output.opens] at htally
    simp only [core, HashMap.contains_insert]
    by_cases hid : id = id'
    · subst hid
      simp at htally ⊢
      omega
    · simp [hid, Ne.symm hid] at htally ⊢
      exact htally
  · rcases h.executed id' hw with hopens | ⟨f, hf, hex⟩
    · obtain ⟨range', hin⟩ := Swarm.openings_pos_iff.mp hopens
      have hhead : io.outputs = [.readForUpload id' range'] := h.sole id' range' hin
      exact ⟨_, List.mem_cons_self .., hmove, hphase, range', [], hhead⟩
    · exact ⟨f, List.mem_cons_of_mem _ hf, hex⟩

theorem unopened_rest {out : Output} {rest : List Output} (hout : io.outputs = out :: rest)
    (hnone : ∀ id range, .readForUpload id range ∉ io.outputs) (id : UploadReadId)
    (range : BlockRange) : .readForUpload id range ∉ rest :=
  fun hin => hnone id range (hout ▸ List.mem_cons_of_mem _ hin)

theorem Agreed.cancel (h : Agreed trace io.core) {id : UploadReadId} {rest : List Output}
    (hout : io.outputs = .cancelUploadRead id :: rest) :
    Agreed trace { io.core with outputs := rest, readHandles := io.readHandles.remove id } := by
  have hnone : ∀ id range, .readForUpload id range ∉ io.outputs := h.unopened hout (by simp)
  have hrest := unopened_rest hout hnone
  refine ⟨fun id' => ?_, fun id' range hin => absurd hin (hrest id' range),
    fun id' range hin => absurd hin (hrest id' range), fun id' hw => .inr ?_⟩
  · have htally := h.counted id'
    rw [Swarm.countP_opens_of_not_mem (hnone id')] at htally
    simp only [core, Swarm.countP_opens_of_not_mem (hrest id'), HashMap.contains_remove]
    by_cases hid : id' = id
    · subst hid
      have hbound := Bool.toNat_le (io.readHandles.contains id')
      simp only [hout, List.count_cons_self] at htally
      simp
      omega
    · rw [hout, List.count_cons_of_ne (by simpa using Ne.symm hid)] at htally
      simpa [hid] using htally
  · rcases h.executed id' hw with hopens | hex
    · obtain ⟨range, hin⟩ := Swarm.openings_pos_iff.mp hopens
      exact absurd hin (hnone id' range)
    · exact hex

theorem Agreed.disconnect (h : Agreed trace io.core)
    (hr : Swarm.Reachable sha1 clientId m io.swarm) {x : SocketAddr} {rest : List Output}
    (hout : io.outputs = .disconnectPeer x :: rest) (env : Entropy) :
    Agreed trace { io.core with
      swarm := (io.swarm.step sha1 (.peerDisconnected x, env)).1
      outputs := (io.swarm.step sha1 (.peerDisconnected x, env)).2 ++ rest } := by
  have hnone : ∀ id range, .readForUpload id range ∉ io.outputs := h.unopened hout (by simp)
  refine h.absorb hr (.peerDisconnected x, env) rest io.readHandles io.phase hnone
    (unopened_rest hout hnone) (fun id range hin => ?_) fun id => ?_
  · rcases Swarm.step_uploads sha1 io.swarm _ hin rfl with ⟨_, _, _, hi, -⟩ | ⟨_, _, _, _, hi, -⟩
    · contradiction
    · contradiction
  · have htally := h.counted id
    rw [Swarm.countP_opens_of_not_mem (hnone id)] at htally
    rw [takes_outside rfl]
    simpa [hout] using htally

theorem Course.agreed (h : Course sha1 io i c effects)
    (hr : Swarm.Reachable sha1 clientId m io.swarm)
    (hidle : io.phase = .selecting → io.outputs = []) (htasked : Tasked io)
    (hag : Agreed trace io.core) (hopen : c.phase.over = false) :
    Agreed (⟨io, i, effects⟩ :: trace) c := by
  have hempty : io.outputs = [] → ∀ id range, .readForUpload id range ∉ io.outputs := by
    intro hnil id range hin
    rw [hnil] at hin
    contradiction
  have hlater : Agreed (⟨io, i, effects⟩ :: trace) io.core := hag.later _
  cases h with
  | stop => contradiction
  | failed => contradiction
  | input input hphase houtside =>
    have hnil := hidle hphase
    have habsorbed := hag.absorb hr (input, i.2) [] io.readHandles .handling (hempty hnil)
      (by simp) (fun _ _ _ => rfl) fun id => by
        rw [takes_outside houtside]
        simpa using hag.idle hnil id
    rw [List.append_nil] at habsorbed
    exact habsorbed.later _
  | complete task read data input hphase hget hstate hlen hheld hinput =>
    subst hinput
    have hnil := hidle hphase
    have habsorbed := hag.absorb hr (.uploadReadCompleted read.id read.range data, i.2) []
      (io.readHandles.remove read.id) .handling (hempty hnil) (by simp) (fun _ _ _ => rfl)
      (hag.complete hr htasked hnil hget hheld i.2)
    rw [List.append_nil] at habsorbed
    exact habsorbed.later _
  | disconnect x rest hphase hout => exact (hag.disconnect hr hout i.2).later _
  | write range data rest cmd hphase hout =>
    have hnone : ∀ id range, .readForUpload id range ∉ io.outputs := hag.unopened hout (by simp)
    exact (hag.restack hnone (unopened_rest hout hnone)
      (fun id => by simp [core, hout]) _ _).later _
  | flush rest hphase hout =>
    have hnone : ∀ id range, .readForUpload id range ∉ io.outputs := hag.unopened hout (by simp)
    exact (hag.restack hnone (unopened_rest hout hnone)
      (fun id => by simp [core, hout]) _ _).later _
  | opened id range rest hmove hphase hout => exact hag.opened hr hmove hphase hout
  | cancel id rest hphase hout => exact (hag.cancel hout).later _
  | pass out rest failed _ hphase hout hpassing =>
    have hother : ∀ id range, out ≠ .readForUpload id range := by
      rintro id range rfl
      contradiction
    have hnone : ∀ id range, .readForUpload id range ∉ io.outputs := hag.unopened hout hother
    refine (hag.restack hnone (fun id range hin => ?_) (fun id => ?_) _ _).later _
    · rcases List.mem_append.mp hin with hfailed | hrest
      · obtain ⟨x, -, hx⟩ := List.mem_map.mp hfailed
        contradiction
      · exact unopened_rest hout hnone id range hrest
    · have hcancel : out ≠ .cancelUploadRead id := by
        rintro rfl
        contradiction
      have hfailed : (failed.map Output.disconnectPeer).count (.cancelUploadRead id) = 0 :=
        List.count_eq_zero.mpr fun hin => by simp at hin
      simp [core, hout, List.count_append, hfailed, List.count_cons_of_ne hcancel]
  | idle | publish | send | serve | store | flushed | broken =>
    exact ⟨hlater.tally, hlater.sole, hlater.stacked, hlater.executed⟩

theorem Course.issued (h : Course sha1 io i c effects) (ha : io.swarm.Accounted)
    {id : UploadReadId} {range : BlockRange} (hissued : io.swarm.Issued id range) :
    c.swarm.Issued id range := by
  rcases h.projects with ⟨hsame, -⟩ | ⟨input, -, hnext, -⟩
  · exact hsame ▸ hissued
  · rw [hnext]
    exact Swarm.issued_step ha hissued (input, i.2)

theorem tasked_step (hdrained : io.core.Drained)
    (hr : Swarm.Reachable sha1 clientId m io.swarm) (h : Tasked io)
    (hag : io.phase.over = false → Agreed trace io.core) (i : Move × Entropy) :
    Tasked (io.step sha1 i).1 := by
  have hkeep : ∀ {id range}, io.swarm.Issued id range →
      (io.step sha1 i).1.swarm.Issued id range := fun hissued =>
    (course_step hdrained i).issued (Swarm.reachable_accounted hr) hissued
  intro k t' ht'
  rcases step_reads sha1 io i with hcarried | ⟨hphase, id, range, rest, hout, hreads⟩
  · obtain ⟨t, ht, hinherits⟩ := hcarried k t' ht'
    rw [hinherits.id, hinherits.range]
    exact hkeep (h k t ht)
  · rw [hreads, HashMap.get_insert] at ht'
    split at ht'
    · obtain rfl := Option.some.inj ht'
      have hopen : io.phase.over = false := by simp [hphase, Phase.over]
      exact hkeep ((hag hopen).stacked id range (by simp [core, hout]))
    · exact hkeep (h k t' ht')

theorem history_agreed (hist : History (step sha1) (Started sha1 clientId m) trace io) :
    Tasked io ∧ (io.phase.over = false → Agreed trace io.core) := by
  induction hist with
  | @start io hs =>
    obtain ⟨hout, -, hhandles, hreads, -, -⟩ := started_idle hs
    have hwaiting : ∀ id, io.swarm.waiting id = 0 := by
      obtain ⟨restored, hlocal, hswarm⟩ := history_projects (.start hs)
      exact fun id => Swarm.waiting_restored hswarm hlocal id
    refine ⟨fun k t ht => ?_, fun _ => ⟨fun id => ?_, ?_, ?_, fun id hw => ?_⟩⟩
    · rw [hreads] at ht
      contradiction
    · simp [core, hout, hhandles, hwaiting]
    · simp [core, hout]
    · simp [core, hout]
    · exact absurd (hwaiting id) (Nat.pos_iff_ne_zero.mp hw)
  | @next trace io i hist ih =>
    have hr := swarm_reachable hist
    have hdrained := history_drained hist
    refine ⟨tasked_step hdrained hr ih.1 ih.2 i, fun hopen => ?_⟩
    have hcourse : Course sha1 io i _ _ := course_step hdrained i
    have hbefore : io.phase.over = false := by
      by_contra hover
      have hafter : (io.step sha1 i).1.phase.over = true :=
        hcourse.stays_over (history_awaited hist) (by simpa using hover)
      rw [hafter] at hopen
      contradiction
    exact hcourse.agreed hr (history_idle hist) ih.1 (ih.2 hbefore) hopen

theorem Course.stepping (h : Course sha1 io i c effects)
    (hne : swarmEvents ⟨io, i, effects⟩ ≠ []) :
    io.phase = .selecting ∨
      ∃ x rest, io.phase = .handling ∧ io.outputs = .disconnectPeer x :: rest := by
  cases h with
  | input _ hphase => exact .inl hphase
  | complete _ _ _ _ hphase => exact .inl hphase
  | disconnect x rest hphase hout => exact .inr ⟨x, rest, hphase, hout⟩
  | pass out rest failed _ _ _ _ hsent =>
    refine absurd (swarmEvents_unstepped fun input outputs hin => ?_) hne
    obtain ⟨k, x, m, heq⟩ := hsent _ hin
    contradiction
  | serve offset len task queue _ _ heffects =>
    refine absurd (swarmEvents_unstepped fun input outputs hin => ?_) hne
    have heq := heffects _ hin
    contradiction
  | _ => contradiction

theorem executed_before (hist : History (step sha1) (Started sha1 clientId m) trace io)
    (i : Move × Entropy) {id : UploadReadId} {f : Swarm.Happening}
    (hf : f ∈ swarmEvents ⟨io, i, (io.step sha1 i).2⟩) (hcloses : 0 < Swarm.closings id f) :
    ∃ g ∈ trace, Executes id g := by
  have hcourse : Course sha1 io i _ _ := course_step (history_drained hist) i
  have hwaiting : 0 < io.swarm.waiting id := by
    rcases hcourse.projects with ⟨-, hnone⟩ | ⟨input, -, -, hone⟩
    · rw [hnone] at hf
      contradiction
    · rw [hone, List.mem_singleton] at hf
      subst hf
      exact Swarm.closing_waiting (Swarm.reachable_accounted (swarm_reachable hist)) _ id hcloses
  have hstepping := hcourse.stepping (List.ne_nil_of_mem hf)
  have hopen : io.phase.over = false := by
    rcases hstepping with hphase | ⟨x, rest, hphase, -⟩
    · simp [hphase, Phase.over]
    · simp [hphase, Phase.over]
  have hag := (history_agreed hist).2 hopen
  rcases hag.executed id hwaiting with hstacked | hexecuted
  · obtain ⟨range, hin⟩ := Swarm.openings_pos_iff.mp hstacked
    rcases hstepping with hphase | ⟨x, rest, -, hout⟩
    · have hnil : io.core.outputs = [] := history_idle hist hphase
      rw [hnil] at hin
      contradiction
    · exact absurd hin (hag.unopened hout (by simp) id range)
  · exact hexecuted

theorem history_closings (hist : History (step sha1) (Started sha1 clientId m) trace io)
    (id : UploadReadId) :
    ((trace.flatMap swarmEvents).map (Swarm.openings id)).sum ≤ 1 ∧
      ((trace.flatMap swarmEvents).map (Swarm.closings id)).sum ≤ 1 := by
  obtain ⟨restored, -, hswarm⟩ := history_projects hist
  have hopenings := (Swarm.history_openings hswarm id).1
  have hbalance := Swarm.history_balance hswarm id
  simp only [List.map_append, List.sum_append] at hopenings hbalance
  omega

theorem open_reads_agree (hist : History (step sha1) (Started sha1 clientId m) trace io) :
    ((io.phase = .selecting ∨ io.phase = .handling ∧ io.outputs = []) → ∀ id,
      io.readHandles.contains id = true ↔
        ∃ range read, io.swarm.pendingReads.get range = some read ∧ read.id = id) ∧
    (∀ id, ((trace.flatMap swarmEvents).map (Swarm.openings id)).sum ≤ 1 ∧
      ((trace.flatMap swarmEvents).map (Swarm.closings id)).sum ≤ 1) ∧
    ∀ newer e older, trace = newer ++ e :: older → ∀ id, ∀ f ∈ swarmEvents e,
      0 < Swarm.closings id f → ∃ g ∈ older, Executes id g := by
  refine ⟨fun hphase id => ?_, history_closings hist,
    fun newer e older htrace id f hf hcloses => ?_⟩
  · have hnil : io.outputs = [] := hphase.elim (history_idle hist) And.right
    have hopen : io.phase.over = false := by
      rcases hphase with hphase | ⟨hphase, -⟩
      · simp [hphase, Phase.over]
      · simp [hphase, Phase.over]
    have hidle := ((history_agreed hist).2 hopen).idle hnil id
    rw [← Swarm.waiting_pos_iff, ← hidle]
    cases io.readHandles.contains id <;> simp
  · obtain ⟨hbefore, houtputs⟩ := hist.event_before htrace
    obtain ⟨before, i, outputs⟩ := e
    simp only at hbefore houtputs
    subst houtputs
    exact executed_before hbefore i hf hcloses

theorem open_read_pending : ∃ io trace,
    History (step Sample.contentSha1) (Started Sample.contentSha1 (Sample.peerId 1) Sample.torrent)
      trace io ∧
    ∃ range read, io.swarm.pendingReads.get range = some read ∧ read.id = ⟨0⟩ := by
  have hrun : (Sample.opened.any fun io =>
      let final := (History.run (step Sample.contentSha1) io
        (Sample.drawn Sample.sharing.dropLast)).1
      !final.phase.busy && !final.phase.over && final.readHandles.contains ⟨0⟩) = true := by
    decide +kernel
  obtain ⟨io, hcheck, hist⟩ := Sample.opened_history hrun
  simp only [Bool.and_eq_true, Bool.not_eq_true'] at hcheck
  obtain ⟨⟨hbusy, hover⟩, hheld⟩ := hcheck
  obtain ⟨hagree, -⟩ := open_reads_agree (hist Sample.sharing.dropLast)
  have hphase := selecting_of_resting hbusy hover
  exact ⟨_, _, hist Sample.sharing.dropLast, (hagree (.inl hphase) ⟨0⟩).mp hheld⟩

end SwarmIo

end Tortue
