import Tortue.Adapters.Replies

namespace Tortue

open Collections

namespace Exchange

variable {ι : Type}

def InFlight (info : Bytes) (e : Exchange ι) (i : ι) (piece : Nat) : Prop :=
  (∃ frame ∈ e.toServer i, Asks info piece frame) ∨
    ∃ frame ∈ e.toFetcher i, Answers info piece frame

def Awaits (info : Bytes) (t : Topology ι) (e : Exchange ι) (i : ι) : Prop :=
  e.fetcher.peers.get (t.addr i) = some utMetadataExtId ∧ e.fetcher.totalSize ≠ none ∧
    ∀ p, Slots.Vacant e.fetcher.pieces p → InFlight info e i p

def Leads (size : Option Nat) (frames : List Bytes) : Prop :=
  ∃ frame, frames.head? = some frame ∧ Hello size frame

structure Fetching (sha1 : Sha1) (info : Bytes) (e : Exchange ι) : Prop where
  hash : e.fetcher.infoHash = sha1 info
  right : e.fetcher.totalSize ≠ none → Metadata.Right info e.fetcher
  waiting : e.fetcher.totalSize = none ∨ (∃ p, Slots.Vacant e.fetcher.pieces p) → e.done = []
  finished : e.fetcher.totalSize ≠ none → Slots.Full e.fetcher.pieces → e.done = [info]

structure Connected (info : Bytes) (t : Topology ι) (e : Exchange ι) (i : ι) : Prop where
  registered : (e.servers i).peerRegistry.peers.contains (t.own i) = true
  holds : (e.servers i).metainfo.infoBytes = info
  fromServer : ∀ frame ∈ e.toFetcher i, Hello (some info.length) frame ∨
    (∃ m, Message.decode frame = .ok m ∧ Greeting m) ∨ ∃ p, Answers info p frame
  fromFetcher : ∀ frame ∈ e.toServer i, Hello none frame ∨ ∃ p, Asks info p frame
  serves : (e.servers i).peerRegistry.peerExtensionId (t.own i) "ut_metadata" =
      some utMetadataExtId ∨ Leads none (e.toServer i)
  asked : Awaits info t e i ∨ Leads (some info.length) (e.toFetcher i)

structure Consistent (sha1 : Sha1) (info : Bytes) (t : Topology ι) (e : Exchange ι) : Prop where
  fetching : Fetching sha1 info e
  connected : ∀ i, Connected info t e i

variable {sha1 : Sha1} {info : Bytes} {t : Topology ι} {e : Exchange ι}

theorem hello_session (o : IterOrder) {size : Option Nat}
    (hsize : ∀ n, size = some n → n < 2 ^ 63) :
    Hello size ((Message.extensionHandshake (sessionHandshake size)).encode o) :=
  decode_session o hsize

theorem consistent_opened (hlt : info.length < 2 ^ 32) (h : Opened sha1 info t e) :
    Consistent sha1 info t e := by
  have hsized : ∀ n, some info.length = some n → n < 2 ^ 63 := by
    rintro n ⟨⟩
    omega
  refine ⟨⟨?_, ?_, fun _ => h.done, ?_⟩, fun i => ?_⟩
  · rw [h.fetcher]
    rfl
  · exact fun hne => absurd (by rw [h.fetcher]; rfl) hne
  · exact fun hne => absurd (by rw [h.fetcher]; rfl) hne
  · obtain ⟨s, env, d, id, extensions, o, hinfo, hserver, hreg, hframes⟩ := h.server i
    obtain ⟨o', hgreeting⟩ := h.greeting i
    have hmetainfo : (s.onConnected env (t.own i) d id extensions).1.metainfo = s.metainfo := by
      rcases Swarm.onConnected_cases env s (t.own i) d id extensions with
        ⟨-, hs⟩ | ⟨_, -, -, hs⟩ | ⟨_, -, -, hs⟩ <;> rw [hs] <;> rfl
    refine ⟨hreg, by rw [hserver, hmetainfo, hinfo], ?_, ?_, .inr ?_, .inr ?_⟩
    · intro frame hframe
      rw [hframes] at hframe
      rcases List.mem_cons.mp hframe with rfl | hframe
      · exact .inl (hello_session o hsized)
      · obtain ⟨out, hout, hsent⟩ := List.mem_filterMap.mp hframe
        cases out with
        | sendToPeer a m =>
          simp only [frameOfServer, Option.ite_none_right_eq_some, Option.some.injEq] at hsent
          obtain ⟨-, rfl⟩ := hsent
          have hm := greeting_onConnected hout
          exact .inr (.inl ⟨m, decode_greeting hm o, hm⟩)
        | _ => contradiction
    · intro frame hframe
      rw [hgreeting, List.mem_singleton] at hframe
      exact .inl (hframe ▸ hello_session o' (by simp))
    · exact ⟨_, by rw [hgreeting]; rfl, hello_session o' (by simp)⟩
    · exact ⟨_, by rw [hframes]; rfl, hello_session o hsized⟩

theorem Leads.append {size : Option Nat} {frames : List Bytes} (h : Leads size frames)
    (more : List Bytes) : Leads size (frames ++ more) := by
  obtain ⟨frame, hhead, hello⟩ := h
  exact ⟨frame, by rw [List.head?_append, hhead]; rfl, hello⟩

theorem hello_of_leads {size : Option Nat} {frame : Bytes} {rest : List Bytes}
    (h : Leads size (frame :: rest)) : Hello size frame := by
  obtain ⟨_, hhead, hello⟩ := h
  rw [List.head?_cons, Option.some.injEq] at hhead
  exact hhead ▸ hello

theorem answers_unique {p q : Nat} {frame : Bytes} (hlt : info.length < 2 ^ 64)
    (hp : Answers info p frame) (hq : Answers info q frame) : p = q := by
  have hsame := hp.2.symm.trans hq.2
  simp only [Except.ok.injEq, Message.extension.injEq, true_and] at hsame
  have hdecode := UtMetadataMessage.decode_data (Metadata.block info p)
    ((Metadata.piece_lt_length hp.1).trans hlt) hlt
  rw [hsame, UtMetadataMessage.decode_data _ ((Metadata.piece_lt_length hq.1).trans hlt) hlt]
    at hdecode
  simp only [Except.ok.injEq, UtMetadataMessage.data.injEq] at hdecode
  exact hdecode.1.symm

theorem asks_unique {p q : Nat} {frame : Bytes} (hlt : info.length < 2 ^ 64)
    (hp : Asks info p frame) (hq : Asks info q frame) : p = q := by
  have hsame := hp.2.symm.trans hq.2
  simp only [Except.ok.injEq, Message.extension.injEq, true_and] at hsame
  have hdecode := UtMetadataMessage.decode_request ((Metadata.piece_lt_length hp.1).trans hlt)
  rw [hsame, UtMetadataMessage.decode_request
    ((Metadata.piece_lt_length hq.1).trans hlt)] at hdecode
  simp only [Except.ok.injEq, UtMetadataMessage.request.injEq] at hdecode
  exact hdecode.symm

theorem server_reply (hlt : info.length < 2 ^ 32) (h : Consistent sha1 info t e) {i : ι}
    {frame : Bytes} {rest : List Bytes} (hframe : e.toServer i = frame :: rest) {message : Message}
    (hdecode : Message.decode frame = .ok message) (env : Entropy) :
    ∃ r, Swarm.step sha1 (e.servers i) (.messageReceived (t.own i) message, env) = r ∧
      r.1.peerRegistry.peers.contains (t.own i) = true ∧ r.1.metainfo.infoBytes = info ∧
      r.1.peerRegistry.peerExtensionId (t.own i) "ut_metadata" = some utMetadataExtId ∧
      (r.2.filterMap (frameOfServer env.order (t.own i)) = [] ∧ (∀ p, ¬ Asks info p frame) ∨
        ∃ p f, Asks info p frame ∧ Answers info p f ∧
          r.2.filterMap (frameOfServer env.order (t.own i)) = [f]) := by
  have hlink := h.connected i
  rcases hlink.fromFetcher frame (by rw [hframe]; exact List.mem_cons_self ..) with
    ⟨hs, hhello, hid, -⟩ | ⟨p, hp⟩
  · obtain rfl : message = .extensionHandshake hs := Except.ok.inj (hdecode.symm.trans hhello)
    obtain ⟨r, hserver, hreg, hext⟩ := step_hello sha1 env hlink.registered hs
    refine ⟨_, hserver, hreg, hlink.holds, (hext _).trans hid, .inl ⟨rfl, ?_⟩⟩
    rintro p ⟨-, hasks⟩
    rw [hhello, Except.ok.injEq] at hasks
    contradiction
  · obtain rfl := Except.ok.inj (hdecode.symm.trans hp.2)
    have hserves := hlink.serves.resolve_right fun hleads => by
      rw [hframe] at hleads
      obtain ⟨hs, hhello, -⟩ := hello_of_leads hleads
      rw [hhello, Except.ok.injEq] at hdecode
      contradiction
    have hbyte := Metadata.piece_lt_length hp.1
    obtain ⟨r, hserver, hreg, hext⟩ := step_request sha1 env hserves (show p < 2 ^ 64 by omega)
    have hmul := Metadata.mul_pieceSize_lt hp.1
    have hblock := infoBytesBlock_eq (e.servers i).metainfo
      (show p * Metadata.pieceSize < 2 ^ 64 by rw [hlink.holds] at *; omega)
    rw [hblock, hlink.holds] at hserver
    refine ⟨_, hserver, hreg, hlink.holds, hext, .inr ⟨p, (Message.extension utMetadataExtId
      (UtMetadataMessage.data p info.length (Metadata.block info p)).encode).encode env.order, hp,
      ⟨hp.1, Message.decode_extension (by decide) _ _⟩, ?_⟩⟩
    simp only [List.filterMap_cons, frameOfServer, if_true, List.filterMap_nil]

theorem Consistent.done_le (h : Consistent sha1 info t e) : e.done = [] ∨ e.done = [info] := by
  rcases eq_or_ne e.fetcher.totalSize none with hnone | hsized
  · exact .inl (h.fetching.waiting (.inl hnone))
  · rcases Classical.em (∃ p, Slots.Vacant e.fetcher.pieces p) with hvacant | hfull
    · exact .inl (h.fetching.waiting (.inr hvacant))
    · exact .inr (h.fetching.finished hsized (not_exists.mp hfull))

theorem Consistent.done_of_settled [Nonempty ι] (h : Consistent sha1 info t e)
    (hsettled : e.Settled) : e.done = [info] := by
  obtain ⟨i⟩ := ‹Nonempty ι›
  obtain ⟨hfetcher, hserver⟩ := hsettled i
  obtain ⟨-, hsized, hflight⟩ := (h.connected i).asked.resolve_right (by simp [hfetcher, Leads])
  refine h.fetching.finished hsized fun p hp => ?_
  rcases hflight p hp with ⟨f, hf, -⟩ | ⟨f, hf, -⟩
  · rw [hserver] at hf
    contradiction
  · rw [hfetcher] at hf
    contradiction

variable [DecidableEq ι]

section AtFetcher

variable {i : ι} {frame : Bytes} {rest : List Bytes} {order : IterOrder}
  {r : Metadata × List Metadata.Output}

theorem toFetcher_took (hframe : e.toFetcher i = frame :: rest) (t : Topology ι)
    (order : IterOrder) (r : Metadata × List Metadata.Output) (j : ι) :
    (j ≠ i ∧ (e.fetcherTook t i rest order r).toFetcher j = e.toFetcher j) ∨
    (j = i ∧ e.toFetcher j = frame :: (e.fetcherTook t i rest order r).toFetcher j) := by
  rcases eq_or_ne j i with rfl | hne
  · exact .inr ⟨rfl, by rw [hframe]; simp only [fetcherTook, Function.update_self]⟩
  · exact .inl ⟨hne, Function.update_of_ne hne ..⟩

theorem asked_took (hframe : e.toFetcher i = frame :: rest) {j : ι}
    (hj : Awaits info t e j ∨ Leads (some info.length) (e.toFetcher j))
    (hnot : j = i → ¬ Hello (some info.length) frame)
    (hpeers : r.1.peers.get (t.addr j) = e.fetcher.peers.get (t.addr j))
    (hsize : e.fetcher.totalSize ≠ none → r.1.totalSize ≠ none)
    (hvacant : e.fetcher.totalSize ≠ none → ∀ p, Slots.Vacant r.1.pieces p →
      Slots.Vacant e.fetcher.pieces p ∧ (j = i → ¬ Answers info p frame)) :
    Awaits info t (e.fetcherTook t i rest order r) j ∨
      Leads (some info.length) ((e.fetcherTook t i rest order r).toFetcher j) := by
  rcases toFetcher_took hframe t order r j with ⟨hne, hsame⟩ | ⟨rfl, hpop⟩
  · rcases hj with ⟨hpeer, hsized, hflight⟩ | hleads
    · refine .inl ⟨hpeers.trans hpeer, hsize hsized, fun p hp => ?_⟩
      rcases hflight p (hvacant hsized p hp).1 with ⟨f, hf, hasks⟩ | ⟨f, hf, hanswers⟩
      · exact .inl ⟨f, List.mem_append_left _ hf, hasks⟩
      · exact .inr ⟨f, by rw [hsame]; exact hf, hanswers⟩
    · exact .inr (by rw [hsame]; exact hleads)
  · rcases hj with ⟨hpeer, hsized, hflight⟩ | hleads
    · refine .inl ⟨hpeers.trans hpeer, hsize hsized, fun p hp => ?_⟩
      obtain ⟨hold, hother⟩ := hvacant hsized p hp
      rcases hflight p hold with ⟨f, hf, hasks⟩ | ⟨f, hf, hanswers⟩
      · exact .inl ⟨f, List.mem_append_left _ hf, hasks⟩
      · rw [hpop] at hf
        rcases List.mem_cons.mp hf with rfl | hf
        · exact absurd hanswers (hother rfl)
        · exact .inr ⟨f, hf, hanswers⟩
    · rw [hpop] at hleads
      exact absurd (hello_of_leads hleads) (hnot rfl)

theorem connected_took (hframe : e.toFetcher i = frame :: rest) {j : ι} (h : Connected info t e j)
    (hframes : ∀ f ∈ r.2.filterMap (frameOfFetcher order (t.addr j)), ∃ p, Asks info p f)
    (hasked : Awaits info t (e.fetcherTook t i rest order r) j ∨
      Leads (some info.length) ((e.fetcherTook t i rest order r).toFetcher j)) :
    Connected info t (e.fetcherTook t i rest order r) j where
  registered := h.registered
  holds := h.holds
  fromServer := by
    intro f hf
    refine h.fromServer f ?_
    rcases toFetcher_took hframe t order r j with ⟨-, hsame⟩ | ⟨-, hpop⟩
    · rwa [hsame] at hf
    · rw [hpop]
      exact List.mem_cons_of_mem _ hf
  fromFetcher := by
    intro f hf
    rcases List.mem_append.mp hf with hf | hf
    · exact h.fromFetcher f hf
    · exact .inr (hframes f hf)
  serves := h.serves.imp_right fun hleads => hleads.append _
  asked := hasked

theorem asks_of_missing {s : Metadata} (hright : Metadata.Right info s) {p : Nat}
    (hp : p ∈ s.missing) (o : IterOrder) : Asks info p ((Message.extension utMetadataExtId
      (UtMetadataMessage.request p).encode).encode o) := by
  refine ⟨?_, Message.decode_extension (by decide) _ o⟩
  rw [← hright.count]
  exact Slots.Vacant.lt (Metadata.mem_missing.mp hp)

theorem consistent_hello (hinfo : info ≠ []) (h : Consistent sha1 info t e)
    (hframe : e.toFetcher i = frame :: rest) {hs : ExtensionHandshake}
    (hid : hs.extensions.get "ut_metadata" = some utMetadataExtId)
    (hsize : hs.metadataSize = some info.length) :
    Consistent sha1 info t (e.fetcherTook t i rest order
      (Metadata.step sha1 e.fetcher
        (.messageReceived (t.addr i) (.extensionHandshake hs), order))) := by
  simp only [Metadata.step, Metadata.onMessage, Metadata.onHandshake_eq hid hsize]
  have hright := Metadata.greeted_right h.fetching.right (t.addr i) utMetadataExtId
  have hpeers := Metadata.greeted_peers e.fetcher info.length (t.addr i) utMetadataExtId
  have hsized := Metadata.greeted_sized e.fetcher info.length (t.addr i) utMetadataExtId
  have hpieces : e.fetcher.totalSize ≠ none →
      (e.fetcher.greeted info.length (t.addr i) utMetadataExtId).pieces = e.fetcher.pieces := by
    intro hsome
    rw [Metadata.greeted, Metadata.announced_later hsome]
  have hblank : e.fetcher.totalSize = none →
      (e.fetcher.greeted info.length (t.addr i) utMetadataExtId).pieces =
        List.replicate (Metadata.blockCount info) none :=
    fun hnone => Metadata.announced_first hnone info.length
  have hhash := Metadata.greeted_hash e.fetcher info.length (t.addr i) utMetadataExtId
  have hpeer : (e.fetcher.greeted info.length (t.addr i) utMetadataExtId).peers.get (t.addr i) =
      some utMetadataExtId := by
    rw [hpeers]
    exact HashMap.get_insert_self ..
  generalize e.fetcher.greeted info.length (t.addr i) utMetadataExtId = s at *
  refine ⟨⟨hhash.trans h.fetching.hash, fun _ => hright, ?_, ?_⟩, fun j => ?_⟩
  · intro hwait
    have hvacant : ∃ p, Slots.Vacant s.pieces p := hwait.resolve_left hsized
    have hbefore : e.done = [] := by
      rcases eq_or_ne e.fetcher.totalSize none with hnone | hsome
      · exact h.fetching.waiting (.inl hnone)
      · exact h.fetching.waiting (.inr (hpieces hsome ▸ hvacant))
    simp only [fetcherTook, hbefore, raw_missing, List.append_nil]
  · intro _ hfull
    rcases eq_or_ne e.fetcher.totalSize none with hnone | hsome
    · have hvacant : Slots.Vacant s.pieces 0 := by
        rw [hblank hnone]
        exact Slots.vacant_blank.mpr (Metadata.blockCount_pos hinfo)
      exact absurd hvacant (hfull 0)
    · have hbefore := h.fetching.finished hsome (hpieces hsome ▸ hfull)
      simp only [fetcherTook, hbefore, raw_missing, List.append_nil]
  · have hframes := frames_missing order (t.addr j) hpeer
    refine connected_took hframe (h.connected j) ?_ ?_
    · intro f hf
      rw [hframes] at hf
      split_ifs at hf
      · obtain ⟨p, hp, rfl⟩ := List.mem_map.mp hf
        exact ⟨p, asks_of_missing hright hp order⟩
      · contradiction
    · rcases eq_or_ne j i with rfl | hne
      · refine .inl ⟨hpeer, hsized, fun p hp => .inl ⟨_, List.mem_append_right _ ?_,
          asks_of_missing hright (Metadata.mem_missing.mpr hp) order⟩⟩
        rw [hframes, if_pos rfl]
        exact List.mem_map_of_mem (Metadata.mem_missing.mpr hp)
      · refine asked_took hframe (h.connected j).asked (fun heq => absurd heq hne) ?_
          (fun _ => hsized) fun hsome p hp => ⟨hpieces hsome ▸ hp, fun heq => absurd heq hne⟩
        rw [hpeers, HashMap.get_insert, if_neg (t.distinct.ne hne)]

theorem consistent_answer (hlt : info.length < 2 ^ 64) (h : Consistent sha1 info t e)
    (hframe : e.toFetcher i = frame :: rest) {p : Nat} (hp : Answers info p frame) :
    Consistent sha1 info t (e.fetcherTook t i rest order
      (Metadata.step sha1 e.fetcher (.messageReceived (t.addr i) (.extension utMetadataExtId
        (UtMetadataMessage.data p info.length (Metadata.block info p)).encode), order))) := by
  have hnot : ¬ Hello (some info.length) frame := by
    rintro ⟨hs, hhello, -⟩
    rw [hp.2, Except.ok.injEq] at hhello
    contradiction
  obtain ⟨hpeer, hsized, -⟩ := (h.connected i).asked.resolve_right fun hleads => by
    rw [hframe] at hleads
    exact hnot (hello_of_leads hleads)
  have hright := h.fetching.right hsized
  have hstep := Metadata.onMessage_data sha1 order (Metadata.block info p) hpeer
    ((Metadata.piece_lt_length hp.1).trans hlt) hlt
  have hstored : ∀ q, Slots.Vacant (e.fetcher.store p (Metadata.block info p)).pieces q →
      Slots.Vacant e.fetcher.pieces q ∧ ¬ Answers info q frame := by
    intro q hq
    obtain ⟨hold, hne⟩ := Slots.vacant_fill.mp hq
    exact ⟨hold, fun hanswers => hne (answers_unique hlt hanswers hp)⟩
  simp only [Metadata.step, hstep]
  rcases onData_honest hright h.fetching.hash p with
    ⟨hfilled, hdata⟩ | ⟨hempty, ⟨k, hk⟩, hdata⟩ | ⟨hempty, hfull, hdata⟩
  · rw [hdata]
    refine ⟨⟨h.fetching.hash, h.fetching.right, ?_, ?_⟩, fun j => ?_⟩
    · exact fun hwait => by simpa [fetcherTook] using h.fetching.waiting hwait
    · exact fun _ hfull => by simpa [fetcherTook] using h.fetching.finished hsized hfull
    · refine connected_took hframe (h.connected j) (by simp) ?_
      refine asked_took hframe (h.connected j).asked (fun _ => hnot) rfl (fun hsome => hsome)
        fun _ q hq => ⟨hq, fun _ hanswers => ?_⟩
      exact hfilled (answers_unique hlt hanswers hp ▸ hq)
  · rw [hdata]
    have hbefore := h.fetching.waiting (.inr ⟨p, hempty⟩)
    refine ⟨⟨h.fetching.hash, fun _ => hright.store hempty, ?_, ?_⟩, fun j => ?_⟩
    · exact fun _ => by simpa [fetcherTook] using hbefore
    · exact fun _ hfull => absurd hk (hfull k)
    · refine connected_took hframe (h.connected j) (by simp) ?_
      exact asked_took hframe (h.connected j).asked (fun _ => hnot) rfl (fun hsome => hsome)
        fun _ q hq => ⟨(hstored q hq).1, fun _ => (hstored q hq).2⟩
  · rw [hdata]
    have hbefore := h.fetching.waiting (.inr ⟨p, hempty⟩)
    refine ⟨⟨h.fetching.hash, fun _ => hright.store hempty, ?_, ?_⟩, fun j => ?_⟩
    · rintro (hnone | ⟨k, hk⟩)
      · exact absurd hnone hsized
      · exact absurd hk (hfull k)
    · exact fun _ _ => by simp [fetcherTook, hbefore, MetadataIo.raw]
    · refine connected_took hframe (h.connected j) (by simp [frameOfFetcher]) ?_
      exact asked_took hframe (h.connected j).asked (fun _ => hnot) rfl (fun hsome => hsome)
        fun _ q hq => ⟨(hstored q hq).1, fun _ => (hstored q hq).2⟩

theorem consistent_greeting (h : Consistent sha1 info t e) (hframe : e.toFetcher i = frame :: rest)
    {message : Message} (hdecode : Message.decode frame = .ok message) (hm : Greeting message) :
    Consistent sha1 info t (e.fetcherTook t i rest order
      (Metadata.step sha1 e.fetcher (.messageReceived (t.addr i) message, order))) := by
  have hother : ¬ Hello (some info.length) frame ∧ ∀ p, ¬ Answers info p frame := by
    constructor
    · rintro ⟨hs, hhello, -⟩
      rw [hdecode, Except.ok.injEq] at hhello
      rw [hhello] at hm
      contradiction
    · rintro p ⟨-, hanswer⟩
      rw [hdecode, Except.ok.injEq] at hanswer
      rw [hanswer] at hm
      contradiction
  rw [step_greeting hm]
  refine ⟨⟨h.fetching.hash, h.fetching.right, ?_, ?_⟩, fun j => ?_⟩
  · exact fun hwait => by simpa [fetcherTook] using h.fetching.waiting hwait
  · exact fun hsized hfull => by simpa [fetcherTook] using h.fetching.finished hsized hfull
  · refine connected_took hframe (h.connected j) (by simp) ?_
    exact asked_took hframe (h.connected j).asked (fun _ => hother.1) rfl (fun hsized => hsized)
      fun _ p hp => ⟨hp, fun _ => hother.2 p⟩

end AtFetcher

section AtServer

variable {i : ι} {frame : Bytes} {rest : List Bytes} {o : IterOrder} {r : Swarm × List Output}

theorem inFlight_served (hframe : e.toServer i = frame :: rest)
    (hmoved : ∀ p, Asks info p frame →
      ∃ f ∈ r.2.filterMap (frameOfServer o (t.own i)), Answers info p f)
    {j : ι} {p : Nat} (h : InFlight info e j p) :
    InFlight info (e.serverTook t i rest o r) j p := by
  rcases eq_or_ne j i with rfl | hne
  · have hserver : (e.serverTook t j rest o r).toServer j = rest := Function.update_self ..
    have hfetcher : (e.serverTook t j rest o r).toFetcher j =
        e.toFetcher j ++ r.2.filterMap (frameOfServer o (t.own j)) := Function.update_self ..
    rw [InFlight, hserver, hfetcher]
    rcases h with ⟨f, hf, hasks⟩ | ⟨f, hf, hanswers⟩
    · rw [hframe] at hf
      rcases List.mem_cons.mp hf with rfl | hf
      · obtain ⟨f', hf', hanswers⟩ := hmoved p hasks
        exact .inr ⟨f', List.mem_append_right _ hf', hanswers⟩
      · exact .inl ⟨f, hf, hasks⟩
    · exact .inr ⟨f, List.mem_append_left _ hf, hanswers⟩
  · have hserver : (e.serverTook t i rest o r).toServer j = e.toServer j :=
      Function.update_of_ne hne ..
    have hfetcher : (e.serverTook t i rest o r).toFetcher j = e.toFetcher j :=
      Function.update_of_ne hne ..
    rw [InFlight, hserver, hfetcher]
    exact h

theorem consistent_served (h : Consistent sha1 info t e) (hframe : e.toServer i = frame :: rest)
    (hreg : r.1.peerRegistry.peers.contains (t.own i) = true)
    (hholds : r.1.metainfo.infoBytes = info)
    (hext : r.1.peerRegistry.peerExtensionId (t.own i) "ut_metadata" = some utMetadataExtId)
    (hframes : ∀ f ∈ r.2.filterMap (frameOfServer o (t.own i)), ∃ p, Answers info p f)
    (hmoved : ∀ p, Asks info p frame →
      ∃ f ∈ r.2.filterMap (frameOfServer o (t.own i)), Answers info p f) :
    Consistent sha1 info t (e.serverTook t i rest o r) := by
  refine ⟨⟨h.fetching.hash, h.fetching.right, h.fetching.waiting, h.fetching.finished⟩,
    fun j => ?_⟩
  have hawaits : Awaits info t e j → Awaits info t (e.serverTook t i rest o r) j :=
    fun ⟨hpeer, hsized, hflight⟩ =>
      ⟨hpeer, hsized, fun p hp => inFlight_served hframe hmoved (hflight p hp)⟩
  have hj := h.connected j
  rcases eq_or_ne j i with rfl | hne
  · have hservers : (e.serverTook t j rest o r).servers j = r.1 := Function.update_self ..
    have hserver : (e.serverTook t j rest o r).toServer j = rest := Function.update_self ..
    have hfetcher : (e.serverTook t j rest o r).toFetcher j =
        e.toFetcher j ++ r.2.filterMap (frameOfServer o (t.own j)) := Function.update_self ..
    refine ⟨?_, ?_, ?_, ?_, .inl ?_, ?_⟩
    · rw [hservers, hreg]
    · rw [hservers, hholds]
    · intro f hf
      rw [hfetcher] at hf
      rcases List.mem_append.mp hf with hf | hf
      · exact hj.fromServer f hf
      · exact .inr (.inr (hframes f hf))
    · intro f hf
      rw [hserver] at hf
      exact hj.fromFetcher f (by rw [hframe]; exact List.mem_cons_of_mem _ hf)
    · rw [hservers, hext]
    · rw [hfetcher]
      exact hj.asked.imp hawaits fun hleads => hleads.append _
  · have hservers : (e.serverTook t i rest o r).servers j = e.servers j :=
      Function.update_of_ne hne ..
    have hserver : (e.serverTook t i rest o r).toServer j = e.toServer j :=
      Function.update_of_ne hne ..
    have hfetcher : (e.serverTook t i rest o r).toFetcher j = e.toFetcher j :=
      Function.update_of_ne hne ..
    refine ⟨?_, ?_, ?_, ?_, ?_, ?_⟩
    · rw [hservers, hj.registered]
    · rw [hservers, hj.holds]
    · rw [hfetcher]
      exact hj.fromServer
    · rw [hserver]
      exact hj.fromFetcher
    · rw [hservers, hserver]
      exact hj.serves
    · rw [hfetcher]
      exact hj.asked.imp_left hawaits

theorem consistent_atServer (hlt : info.length < 2 ^ 32) (h : Consistent sha1 info t e)
    {env : Entropy} {e' : Exchange ι} (hstep : e.atServer sha1 t i env = some e') :
    Consistent sha1 info t e' := by
  obtain ⟨frame, rest, message, hframe, hdecode, rfl⟩ := atServer_eq_some.mp hstep
  obtain ⟨r, hr, hreg, hholds, hext, hreply⟩ := server_reply hlt h hframe hdecode env
  rw [hr]
  rcases hreply with ⟨hsilent, hnone⟩ | ⟨p, f, hasks, hanswers, hsent⟩
  · refine consistent_served h hframe hreg hholds hext (by simp [hsilent]) fun p hp => ?_
    exact absurd hp (hnone p)
  · refine consistent_served h hframe hreg hholds hext (fun f' hf' => ?_) fun q hq => ?_
    · rw [hsent, List.mem_singleton] at hf'
      exact ⟨p, hf' ▸ hanswers⟩
    · obtain rfl := asks_unique (show info.length < 2 ^ 64 by omega) hasks hq
      exact ⟨f, by rw [hsent]; exact List.mem_singleton_self f, hanswers⟩

end AtServer

theorem consistent_atFetcher (hinfo : info ≠ []) (hlt : info.length < 2 ^ 32)
    (h : Consistent sha1 info t e) {i : ι} {order : IterOrder} {e' : Exchange ι}
    (hstep : e.atFetcher sha1 t i order = some e') : Consistent sha1 info t e' := by
  obtain ⟨frame, rest, message, hframe, hdecode, rfl⟩ := atFetcher_eq_some.mp hstep
  rcases (h.connected i).fromServer frame (by rw [hframe]; exact List.mem_cons_self ..) with
    ⟨hs, hhello, hid, hsize⟩ | ⟨m, hm, hgreeting⟩ | ⟨p, hp⟩
  · obtain rfl : message = .extensionHandshake hs := Except.ok.inj (hdecode.symm.trans hhello)
    exact consistent_hello hinfo h hframe hid hsize
  · obtain rfl : message = m := Except.ok.inj (hdecode.symm.trans hm)
    exact consistent_greeting h hframe hm hgreeting
  · obtain rfl := Except.ok.inj (hdecode.symm.trans hp.2)
    exact consistent_answer (by omega) h hframe hp

theorem consistent_run (hinfo : info ≠ []) (hlt : info.length < 2 ^ 32) {start : Exchange ι}
    (hopen : Opened sha1 info t start) (hrun : Relation.ReflTransGen (Next sha1 t) start e) :
    Consistent sha1 info t e := by
  induction hrun with
  | refl => exact consistent_opened hlt hopen
  | tail _ hnext ih =>
    obtain ⟨d, hd⟩ := hnext
    cases d with
    | atFetcher i order => exact consistent_atFetcher hinfo hlt ih hd
    | atServer i env => exact consistent_atServer hlt ih hd

end Exchange

end Tortue
