import Tortue.Domain.Canonical
import Tortue.Domain.Torrent

namespace Tortue

theorem Except.bind_eq_ok {ε α β : Type} {x : Except ε α} {f : α → Except ε β} {b : β} :
    (x >>= f) = .ok b ↔ ∃ a, x = .ok a ∧ f a = .ok b := by
  cases x with
  | error e => simp [bind, Except.bind]
  | ok a => simp [bind, Except.bind]

theorem Except.mapM_eq_ok {ε α β : Type} {f : α → Except ε β} {l : List α} {m : List β}
    (h : List.Forall₂ (fun a b => f a = .ok b) l m) : l.mapM f = .ok m := by
  induction h with
  | nil => rfl
  | cons hab _ ih =>
    rw [List.mapM_cons, hab]
    simp only [Except.bind_eq_ok]
    exact ⟨_, rfl, _, ih, rfl⟩

theorem Except.toOption_eq_some {ε α : Type} {x : Except ε α} {a : α} :
    x.toOption = some a ↔ x = .ok a := by
  cases x <;> simp [Except.toOption]

theorem Except.exists_ok {ε α : Type} {x : Except ε α} {check : α → Bool}
    (h : x.toOption.any check = true) : ∃ a, x = .ok a ∧ check a = true := by
  cases x with
  | error e => contradiction
  | ok a => exact ⟨a, rfl, h⟩

theorem Except.map_eq_ok {ε α β : Type} {f : α → β} {x : Except ε α} {b : β} :
    f <$> x = .ok b ↔ ∃ a, x = .ok a ∧ f a = b := by
  cases x <;> simp [Functor.map, Except.map]

theorem Except.mapM_ok_mem {ε α β : Type} {f : α → Except ε β} {l : List α} {r : List β}
    (h : l.mapM f = .ok r) {b : β} (hb : b ∈ r) : ∃ a ∈ l, f a = .ok b := by
  induction l generalizing r with
  | nil =>
    rw [List.mapM_nil] at h
    rw [← Except.ok.inj h] at hb
    contradiction
  | cons a l ih =>
    rw [List.mapM_cons] at h
    obtain ⟨c, hc, hrest⟩ := Except.bind_eq_ok.mp h
    obtain ⟨tail, htail, hr⟩ := Except.bind_eq_ok.mp hrest
    rw [← Except.ok.inj hr] at hb
    rcases List.mem_cons.mp hb with rfl | hb
    · exact ⟨a, List.mem_cons_self .., hc⟩
    · obtain ⟨d, hd, hfd⟩ := ih htail hb
      exact ⟨d, List.mem_cons_of_mem _ hd, hfd⟩

theorem length_chunksExact (n : Nat) (data : Bytes) :
    (chunksExact n data).length = data.length / n := by
  rw [chunksExact, List.length_ofFn]

namespace Bencode

theorem get_eq_ok {b v : Bencode} {key : String} : b.get key = .ok v ↔
    ∃ entries, b = .dict entries ∧ dictGet (ByteStr key) entries = some v := by
  cases b with
  | dict entries =>
    simp only [get, dict.injEq, exists_eq_left']
    cases dictGet (ByteStr key) entries <;> simp
  | _ => simp [get]

theorem getBytes_eq_ok {b : Bencode} {key : String} {bytes : Bytes} :
    b.getBytes key = .ok bytes ↔ b.get key = .ok (.bytes bytes) := by
  rw [getBytes, Except.bind_eq_ok]
  constructor
  · rintro ⟨v, hv, h⟩
    cases v with
    | bytes b' =>
      obtain rfl : b' = bytes := Except.ok.inj h
      exact hv
    | _ => contradiction
  · intro h
    exact ⟨_, h, rfl⟩

theorem getInt_eq_ok {b : Bencode} {key : String} {n : Int64} :
    b.getInt key = .ok n ↔ b.get key = .ok (.int n) := by
  rw [getInt, Except.bind_eq_ok]
  constructor
  · rintro ⟨v, hv, h⟩
    cases v with
    | int n' =>
      obtain rfl : n' = n := Except.ok.inj h
      exact hv
    | _ => contradiction
  · intro h
    exact ⟨_, h, rfl⟩

theorem getUtf8_eq_ok {b : Bencode} {key s : String} :
    b.getUtf8 key = .ok s ↔ ∃ bytes, b.get key = .ok (.bytes bytes) ∧ fromUtf8 bytes = some s := by
  rw [getUtf8, Except.bind_eq_ok]
  simp only [getBytes_eq_ok]
  refine exists_congr fun bytes => and_congr_right fun _ => ?_
  cases fromUtf8 bytes with
  | none => simp [throw, throwThe, MonadExceptOf.throw]
  | some t => simp [pure, Except.pure]

end Bencode

namespace Metainfo

theorem liftBencode_eq_ok {α : Type} {x : Except Bencode.Error α} {a : α} :
    liftBencode x = .ok a ↔ x = .ok a := by
  cases x <;> simp [liftBencode]

-- The record that `try_from` builds before it validates it.
def assemble (sha1 : Sha1) (root : Bencode) (announce : List String) (info : Bencode)
    (parts : String × Nat × List PieceHash × Mode) : Metainfo where
  name := parts.1
  announce := announce
  comment := (root.getUtf8 "comment").toOption
  createdBy := (root.getUtf8 "created by").toOption
  createdAt := (root.getInt "creation date").toOption
  urlList := parseUrlList root
  infoBytes := info.encode
  infoHash := sha1 info.encode
  pieceLength := parts.2.1
  pieces := parts.2.2.1
  mode := parts.2.2.2

theorem tryFrom_eq_ok {sha1 : Sha1} {data : Bytes} {m : Metainfo} :
    tryFrom sha1 data = .ok m ↔ ∃ root announce info parts, Bencode.decode data = .ok root ∧
      parseAnnounces root = .ok announce ∧ root.get "info" = .ok info ∧
      parseInfo info = .ok parts ∧ (assemble sha1 root announce info parts).validate = .ok () ∧
      m = assemble sha1 root announce info parts := by
  simp only [tryFrom, Except.bind_eq_ok, liftBencode_eq_ok]
  constructor
  · rintro ⟨root, hroot, announce, hannounce, info, hinfo, parts, hparts, ⟨⟩, hvalid, hm⟩
    exact ⟨root, announce, info, parts, hroot, hannounce, hinfo, hparts, hvalid,
      (Except.ok.inj hm).symm⟩
  · rintro ⟨root, announce, info, parts, hroot, hannounce, hinfo, hparts, hvalid, rfl⟩
    exact ⟨root, hroot, announce, hannounce, info, hinfo, parts, hparts, (), hvalid, rfl⟩

theorem parseAnnounces_ok {root : Bencode} {s : String} (h : root.getUtf8 "announce" = .ok s) :
    ∃ announce, parseAnnounces root = .ok announce := by
  simp only [parseAnnounces, Except.bind_eq_ok, liftBencode_eq_ok]
  exact ⟨_, s, h, rfl⟩

end Metainfo

end Tortue
