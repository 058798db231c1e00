import Tortue.Domain.UtMetadata
import Mathlib.Data.Nat.Digits.Lemmas

namespace Tortue

open Collections

theorem u16OfBe_toBe (n : UInt16) : u16OfBe (n >>> 8).toUInt8 n.toUInt8 = n := by
  apply UInt16.toNat.inj
  have hn : n.toNat < 2 ^ 16 := n.toNat_lt
  have height : UInt16.toNat 8 % 16 = 8 := rfl
  have hhigh : ((n.toNat / 2 ^ 8 % 2 ^ 8) <<< 8) % 2 ^ 16 = (n.toNat / 2 ^ 8) <<< 8 := by
    rw [Nat.shiftLeft_eq, Nat.shiftLeft_eq]
    omega
  simp only [u16OfBe, UInt16.toNat_or, UInt16.toNat_shiftLeft, UInt8.toNat_toUInt16,
    UInt16.toNat_toUInt8, UInt16.toNat_shiftRight, height, Nat.shiftRight_eq_div_pow]
  rw [hhigh, ← Nat.shiftLeft_add_eq_or_of_lt (Nat.mod_lt _ (by decide)), Nat.shiftLeft_eq,
    Nat.mul_comm]
  exact Nat.div_add_mod ..

theorem chunksExact_append {n : Nat} (hn : 0 < n) (c : Octets n) (rest : Bytes) :
    chunksExact n (c.val ++ rest) = c :: chunksExact n rest := by
  have hlength : (c.val ++ rest).length / n = rest.length / n + 1 := by
    rw [List.length_append, c.property, Nat.add_div_left _ hn]
  refine List.ext_getElem ?_ fun i hi hj => ?_
  · rw [List.length_cons, length_chunksExact, length_chunksExact, hlength]
  · apply Subtype.ext
    cases i with
    | zero =>
      simp only [chunksExact, List.getElem_ofFn, Nat.mul_zero, List.drop_zero,
        List.getElem_cons_zero]
      exact List.take_left' c.property
    | succ i =>
      simp only [chunksExact, List.getElem_ofFn, List.getElem_cons_succ]
      rw [Nat.mul_succ, Nat.add_comm, ← List.drop_drop, List.drop_left' c.property]

def compact4 (ip : Octets 4) (port : UInt16) : Octets 6 :=
  ⟨ip.val ++ u16ToBe port, by simp [ip.property, u16ToBe]⟩

theorem splitAddr_compact4 (ip : Octets 4) (port : UInt16) :
    splitAddr 4 (compact4 ip port) = (ip, port) := by
  have htail : ∀ k, (ip.val ++ u16ToBe port).getD (4 + k) 0 = (u16ToBe port).getD k 0 := by
    intro k
    rw [List.getD_eq_getElem?_getD, List.getElem?_append_right (by omega), ip.property,
      Nat.add_sub_cancel_left, ← List.getD_eq_getElem?_getD]
  refine Prod.ext (Subtype.ext ?_) ?_
  · exact List.take_left' ip.property
  · simp only [splitAddr, compact4]
    rw [htail 0, htail 1]
    exact u16OfBe_toBe port

def SocketAddr.isV4 : SocketAddr → Bool
  | .v4 _ _ => true
  | .v6 _ _ _ _ => false

-- 18 is a multiple of 6, so the length test of IPv6 lists is never reached.
theorem parseSocketAddrs_eq_ok {bytes : Bytes} {addrs : List SocketAddr} :
    parseSocketAddrs bytes = .ok addrs ↔ bytes.length % 6 = 0 ∧
      addrs = (chunksExact 6 bytes).map fun c => .v4 (splitAddr 4 c).1 (splitAddr 4 c).2 := by
  unfold parseSocketAddrs
  split_ifs with h6 h18
  · simp [h6, eq_comm]
  · omega
  · simp [h6]

theorem parsed_v4 {bytes : Bytes} {addrs : List SocketAddr}
    (h : parseSocketAddrs bytes = .ok addrs) : ∀ a ∈ addrs, a.isV4 = true := by
  intro a ha
  rw [(parseSocketAddrs_eq_ok.mp h).2] at ha
  obtain ⟨c, -, rfl⟩ := List.mem_map.mp ha
  rfl

theorem addedBytes_v4 {a : SocketAddr} (h : a.isV4 = true) :
    ∃ ip port, a = .v4 ip port ∧ UtPexMessage.addedBytes a = (compact4 ip port).val := by
  cases a with
  | v4 ip port => exact ⟨ip, port, rfl, rfl⟩
  | v6 _ _ _ _ => contradiction

theorem length_added {addrs : List SocketAddr} (h : ∀ a ∈ addrs, a.isV4 = true) :
    (addrs.flatMap UtPexMessage.addedBytes).length = 6 * addrs.length := by
  induction addrs with
  | nil => rfl
  | cons a addrs ih =>
    obtain ⟨ip, port, -, hbytes⟩ := addedBytes_v4 (h a (List.mem_cons_self ..))
    rw [List.flatMap_cons, List.length_append, hbytes, (compact4 ip port).property,
      ih fun a ha => h a (List.mem_cons_of_mem _ ha), List.length_cons]
    omega

theorem parse_added {addrs : List SocketAddr} (h : ∀ a ∈ addrs, a.isV4 = true) :
    parseSocketAddrs (addrs.flatMap UtPexMessage.addedBytes) = .ok addrs := by
  refine parseSocketAddrs_eq_ok.mpr ⟨by rw [length_added h, Nat.mul_mod_right], ?_⟩
  induction addrs with
  | nil => simp [chunksExact]
  | cons a addrs ih =>
    obtain ⟨ip, port, rfl, hbytes⟩ := addedBytes_v4 (h a (List.mem_cons_self ..))
    rw [List.flatMap_cons, hbytes, chunksExact_append (by decide), List.map_cons,
      splitAddr_compact4, ← ih fun a ha => h a (List.mem_cons_of_mem _ ha)]

theorem length_v4_le {addrs : List SocketAddr} (hnodup : addrs.Nodup)
    (h : ∀ a ∈ addrs, a.isV4 = true) : addrs.length ≤ 2 ^ 48 := by
  let code : SocketAddr → Nat := fun a =>
    Nat.ofDigits 256 ((UtPexMessage.addedBytes a).map UInt8.toNat)
  have hdigits : ∀ bytes : Bytes, ∀ d ∈ bytes.map UInt8.toNat, d < 256 := by
    intro bytes d hd
    obtain ⟨b, -, rfl⟩ := List.mem_map.mp hd
    exact b.toNat_lt
  have hcode : ∀ a ∈ addrs, code a < 2 ^ 48 := by
    intro a ha
    obtain ⟨ip, port, -, hbytes⟩ := addedBytes_v4 (h a ha)
    have hlength : (UtPexMessage.addedBytes a).length = 6 := by
      rw [hbytes, (compact4 ip port).property]
    have hlt := Nat.ofDigits_lt_base_pow_length (by decide)
      (hdigits (UtPexMessage.addedBytes a))
    rw [List.length_map, hlength] at hlt
    exact hlt
  have hinj : ∀ a ∈ addrs, ∀ b ∈ addrs, code a = code b → a = b := by
    intro a ha b hb hab
    obtain ⟨ip, port, rfl, ha⟩ := addedBytes_v4 (h a ha)
    obtain ⟨ip', port', rfl, hb⟩ := addedBytes_v4 (h b hb)
    simp only [code, ha, hb] at hab
    have hsame := Nat.ofDigits_inj_of_len_eq (by decide) (by
      rw [List.length_map, List.length_map, (compact4 ip port).property,
        (compact4 ip' port').property]) (hdigits _) (hdigits _) hab
    have hvals := Subtype.ext (List.map_injective_iff.mpr (fun _ _ h => UInt8.toNat.inj h) hsame)
    have hsplit := congrArg (splitAddr 4) hvals
    rw [splitAddr_compact4, splitAddr_compact4, Prod.mk.injEq] at hsplit
    rw [hsplit.1, hsplit.2]
  have hcodes : (addrs.map code).Nodup := hnodup.map_on hinj
  have hsub : addrs.map code ⊆ List.range (2 ^ 48) := by
    intro n hn
    obtain ⟨a, ha, rfl⟩ := List.mem_map.mp hn
    exact List.mem_range.mpr (hcode a ha)
  have hle := (hcodes.subperm hsub).length_le
  rwa [List.length_map, List.length_range] at hle

theorem Bencode.length_encodeBytes_le {b : Bytes} (h : b.length < 10 ^ 7) :
    (encodeBytes b).length ≤ b.length + 8 := by
  have hdigits := length_decimal_le (by decide) h
  simp only [encodeBytes, List.length_append, List.length_cons]
  omega

namespace UtPexMessage

theorem readEntry_cases {f g : Fields} {e : Bytes × Bencode} (h : readEntry f e = .ok g) :
    g = f ∨ ∃ bytes addrs, parseSocketAddrs bytes = .ok addrs ∧
      (g = { f with hasPexField := true, added := addrs.foldl HashSet.add f.added } ∨
        g = { f with hasPexField := true, dropped := addrs.foldl HashSet.add f.dropped }) := by
  unfold readEntry at h
  split at h
  · next bytes _ =>
    split_ifs at h
    · obtain ⟨addrs, hparse, hg⟩ := Except.bind_eq_ok.mp h
      exact .inr ⟨bytes, addrs, hparse, .inl (Except.ok.inj hg).symm⟩
    · obtain ⟨addrs, hparse, hg⟩ := Except.bind_eq_ok.mp h
      exact .inr ⟨bytes, addrs, hparse, .inr (Except.ok.inj hg).symm⟩
    · exact .inl (Except.ok.inj h).symm
  · exact .inl (Except.ok.inj h).symm

theorem readEntry_v4 {f g : Fields} {e : Bytes × Bencode} (h : readEntry f e = .ok g)
    (hf : ∀ a, f.added.contains a = true → a.isV4 = true) :
    ∀ a, g.added.contains a = true → a.isV4 = true := by
  rcases readEntry_cases h with rfl | ⟨bytes, addrs, hparse, rfl | rfl⟩
  · exact hf
  · intro a ha
    rcases (contains_foldl_add _ _ _).mp ha with ha | ha
    · exact parsed_v4 hparse a ha
    · exact hf a ha
  · exact hf

theorem readEntries_v4 {entries : List (Bytes × Bencode)} {f g : Fields}
    (h : entries.foldlM readEntry f = .ok g)
    (hf : ∀ a, f.added.contains a = true → a.isV4 = true) :
    ∀ a, g.added.contains a = true → a.isV4 = true := by
  induction entries generalizing f with
  | nil =>
    rw [List.foldlM_nil] at h
    exact Except.ok.inj h ▸ hf
  | cons e entries ih =>
    rw [List.foldlM_cons] at h
    obtain ⟨f', he, hrest⟩ := Except.bind_eq_ok.mp h
    exact ih hrest (readEntry_v4 he hf)

theorem decode_eq_ok {payload : Bytes} {m : UtPexMessage} : decode payload = .ok m ↔
    ∃ entries f, Bencode.decode payload = .ok (.dict entries) ∧
      entries.foldlM readEntry ⟨.empty, .empty, false⟩ = .ok f ∧ f.hasPexField = true ∧
      m = ⟨(f.added.keys.filter fun a => !f.dropped.contains a).foldl HashSet.add .empty⟩ := by
  simp only [decode, Except.bind_eq_ok, Message.liftBencode_eq_ok]
  constructor
  · rintro ⟨v, hv, h⟩
    cases v with
    | dict entries =>
      simp only [Except.bind_eq_ok] at h
      obtain ⟨f, hf, h⟩ := h
      cases hfield : f.hasPexField with
      | false =>
        rw [hfield] at h
        contradiction
      | true =>
        rw [hfield] at h
        exact ⟨entries, f, hv, hf, hfield, (Except.ok.inj h).symm⟩
    | _ => contradiction
  · rintro ⟨entries, f, hv, hf, hfield, rfl⟩
    refine ⟨_, hv, ?_⟩
    simp only [Except.bind_eq_ok]
    refine ⟨f, hf, ?_⟩
    rw [hfield]
    rfl

theorem contains_kept (f : Fields) (a : SocketAddr) :
    ((f.added.keys.filter fun a => !f.dropped.contains a).foldl HashSet.add
      (.empty : HashSet SocketAddr)).contains a = true ↔
        f.added.contains a = true ∧ f.dropped.contains a = false := by
  rw [contains_foldl_add, List.mem_filter, HashMap.mem_keys_iff]
  simp

theorem decoded_v4 {payload : Bytes} {m : UtPexMessage} (h : decode payload = .ok m) :
    ∀ a, m.addrs.contains a = true → a.isV4 = true := by
  obtain ⟨entries, f, -, hf, -, rfl⟩ := decode_eq_ok.mp h
  intro a ha
  exact readEntries_v4 hf (by simp) a ((contains_kept f a).mp ha).1

theorem length_addresses (addrs : List SocketAddr) :
    (addrs.flatMap addedBytes).length + (addrs.flatMap added6Bytes).length ≤ 18 * addrs.length := by
  induction addrs with
  | nil => exact Nat.le_refl _
  | cons a addrs ih =>
    have hone : (addedBytes a).length + (added6Bytes a).length ≤ 18 := by
      cases a with
      | v4 ip port => simp [addedBytes, added6Bytes, ip.property, u16ToBe]
      | v6 ip port _ _ => simp [addedBytes, added6Bytes, ip.property, u16ToBe]
    simp only [List.flatMap_cons, List.length_append, List.length_cons]
    omega

theorem length_encode_le (o : IterOrder) {m : UtPexMessage} {n : Nat}
    (hcount : m.addrs.keys.length ≤ n) (hn : 18 * n < 10 ^ 7) :
    (m.encode o).length ≤ 18 * n + 40 := by
  have hlength := length_addresses (o.arrange m.addrs.keys)
  rw [(o.perm m.addrs.keys).length_eq] at hlength
  have hadded : (Bencode.encodeBytes ((o.arrange m.addrs.keys).flatMap addedBytes)).length ≤
      ((o.arrange m.addrs.keys).flatMap addedBytes).length + 8 :=
        Bencode.length_encodeBytes_le (by omega)
  have hadded6 : (Bencode.encodeBytes ((o.arrange m.addrs.keys).flatMap added6Bytes)).length ≤
      ((o.arrange m.addrs.keys).flatMap added6Bytes).length + 8 :=
        Bencode.length_encodeBytes_le (by omega)
  have hkey : (Bencode.encodeBytes (ByteStr "added")).length = 7 := by decide +kernel
  have hkey6 : (Bencode.encodeBytes (ByteStr "added6")).length = 8 := by decide +kernel
  have hboth : ∀ v w : Bencode, Bencode.dictInsert (ByteStr "added6") v [(ByteStr "added", w)] =
      [(ByteStr "added", w), (ByteStr "added6", v)] := fun _ _ => rfl
  simp only [encode]
  split_ifs <;>
    simp only [hboth, Bencode.dictInsert, Bencode.encode, Bencode.encodeEntries, List.length_append,
      List.length_cons, List.length_nil, hkey, hkey6] <;> omega

theorem encode_v4 {o : IterOrder} {m : UtPexMessage} (hne : m.addrs.keys ≠ [])
    (hv4 : ∀ a ∈ m.addrs.keys, a.isV4 = true) : m.encode o = (Bencode.dict
      [(ByteStr "added", .bytes ((o.arrange m.addrs.keys).flatMap addedBytes))]).encode := by
  have hkeys : ∀ a ∈ o.arrange m.addrs.keys, a.isV4 = true := fun a ha =>
    hv4 a ((o.perm _).mem_iff.mp ha)
  have hadded : (o.arrange m.addrs.keys).flatMap addedBytes ≠ [] := by
    obtain ⟨a, ha⟩ := List.exists_mem_of_ne_nil _ hne
    have hin := (o.perm m.addrs.keys).mem_iff.mpr ha
    obtain ⟨ip, port, -, hbytes⟩ := addedBytes_v4 (hkeys a hin)
    intro hnil
    have hempty := List.flatMap_eq_nil_iff.mp hnil a hin
    have hlength := (compact4 ip port).property
    rw [← hbytes, hempty] at hlength
    contradiction
  have hadded6 : (o.arrange m.addrs.keys).flatMap added6Bytes = [] := by
    refine List.flatMap_eq_nil_iff.mpr fun a ha => ?_
    obtain ⟨ip, port, rfl, -⟩ := addedBytes_v4 (hkeys a ha)
    rfl
  simp only [encode, hadded, hadded6, ne_eq, not_true_eq_false, not_false_eq_true, if_true,
    if_false, Bencode.dictInsert]

theorem decode_encode_v4 (o : IterOrder) {m : UtPexMessage} (hne : m.addrs.keys ≠ [])
    (hv4 : ∀ a ∈ m.addrs.keys, a.isV4 = true) : ∃ m', decode (m.encode o) = .ok m' ∧
      ∀ a, m'.addrs.contains a = m.addrs.contains a := by
  have hkeys : ∀ a ∈ o.arrange m.addrs.keys, a.isV4 = true := fun a ha =>
    hv4 a ((o.perm _).mem_iff.mp ha)
  have hparse := parse_added hkeys
  have hsize : ((o.arrange m.addrs.keys).flatMap addedBytes).length < 2 ^ 64 := by
    have hcount : (o.arrange m.addrs.keys).length ≤ 2 ^ 48 := by
      rw [(o.perm m.addrs.keys).length_eq]
      exact length_v4_le m.addrs.nodup hv4
    rw [length_added hkeys]
    omega
  have hwell : (Bencode.dict [(ByteStr "added",
      .bytes ((o.arrange m.addrs.keys).flatMap addedBytes))]).WellFormed := by
    simp only [Bencode.WellFormed, Bencode.WellFormedEntries]
    exact ⟨by decide, by simp, hsize, trivial⟩
  have hdecode := Bencode.decode_encode hwell
  rw [← encode_v4 (o := o) hne hv4] at hdecode
  have hread : [(ByteStr "added", Bencode.bytes
      ((o.arrange m.addrs.keys).flatMap addedBytes))].foldlM readEntry ⟨.empty, .empty, false⟩ =
        .ok ⟨(o.arrange m.addrs.keys).foldl HashSet.add .empty, .empty, true⟩ := by
    simp only [List.foldlM_cons, List.foldlM_nil, readEntry, or_true, if_true, hparse]
    rfl
  refine ⟨_, decode_eq_ok.mpr ⟨_, _, hdecode, hread, rfl, rfl⟩, fun a => ?_⟩
  rw [Bool.eq_iff_iff, contains_kept, contains_foldl_add, (o.perm m.addrs.keys).mem_iff,
    HashMap.mem_keys_iff]
  simp

end UtPexMessage

end Tortue
