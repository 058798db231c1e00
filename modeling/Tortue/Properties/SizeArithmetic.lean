import Tortue.Adapters.DiskStorage
import Tortue.Domain.Swarm.Frame
import Mathlib.Algebra.Order.BigOperators.Group.List
import Mathlib.Data.Finset.Max
import Mathlib.Data.Nat.Size

namespace Tortue

namespace Metainfo

-- What `try_from` has built when it comes to validate it.
def built (sha1 : Sha1) (data : Bytes) : Except Error Metainfo := do
  let root ← liftBencode (Bencode.decode data)
  let announce ← parseAnnounces root
  let info ← liftBencode (root.get "info")
  let parts ← parseInfo info
  return assemble sha1 root announce info parts

theorem built_eq_ok {sha1 : Sha1} {data : Bytes} {m : Metainfo} :
    built sha1 data = .ok m ↔ ∃ root announce info parts, Bencode.decode data = .ok root ∧
      parseAnnounces root = .ok announce ∧ root.get "info" = .ok info ∧
      parseInfo info = .ok parts ∧ m = assemble sha1 root announce info parts := by
  simp only [built, Except.bind_eq_ok, liftBencode_eq_ok]
  constructor
  · rintro ⟨root, hroot, announce, hannounce, info, hinfo, parts, hparts, hm⟩
    exact ⟨root, announce, info, parts, hroot, hannounce, hinfo, hparts, (Except.ok.inj hm).symm⟩
  · rintro ⟨root, announce, info, parts, hroot, hannounce, hinfo, hparts, rfl⟩
    exact ⟨root, hroot, announce, hannounce, info, hinfo, parts, hparts, rfl⟩

theorem tryFrom_eq_ok_iff_built {sha1 : Sha1} {data : Bytes} {m : Metainfo} :
    tryFrom sha1 data = .ok m ↔ built sha1 data = .ok m ∧ m.validate = .ok () := by
  rw [tryFrom_eq_ok, built_eq_ok]
  constructor
  · rintro ⟨root, announce, info, parts, hroot, hannounce, hinfo, hparts, hvalid, rfl⟩
    exact ⟨⟨root, announce, info, parts, hroot, hannounce, hinfo, hparts, rfl⟩, hvalid⟩
  · rintro ⟨⟨root, announce, info, parts, hroot, hannounce, hinfo, hparts, rfl⟩, hvalid⟩
    exact ⟨root, announce, info, parts, hroot, hannounce, hinfo, hparts, hvalid, rfl⟩

-- The same arithmetic where an overflow stops the program.
def checkedTotal (m : Metainfo) : Option Nat :=
  match m.mode with
  | .single length => some length
  | .multiple files => (files.map File.length).foldlM checkedAdd 0

def checkedExpected (m : Metainfo) : Option Nat := checkedMul m.pieceLength m.pieces.length

theorem foldlM_checkedAdd {lengths : List Nat} {start total : Nat} (hstart : start < 2 ^ 64) :
    lengths.foldlM checkedAdd start = some total ↔
      start + lengths.sum < 2 ^ 64 ∧ total = start + lengths.sum := by
  induction lengths generalizing start with
  | nil =>
    rw [List.foldlM_nil, List.sum_nil, Nat.add_zero, Option.pure_def, Option.some.injEq, eq_comm,
      and_iff_right hstart]
  | cons n lengths ih =>
    rw [List.foldlM_cons, List.sum_cons, Option.bind_eq_bind, Option.bind_eq_some_iff]
    constructor
    · rintro ⟨next, hnext, htotal⟩
      obtain ⟨hlt, rfl⟩ := DiskStorage.checkedAdd_eq_some.mp hnext
      rw [ih hlt, Nat.add_assoc] at htotal
      exact htotal
    · rintro ⟨hlt, rfl⟩
      have hnext : start + n < 2 ^ 64 := by omega
      refine ⟨start + n, DiskStorage.checkedAdd_eq_some.mpr ⟨hnext, rfl⟩, (ih hnext).mpr ?_⟩
      rw [Nat.add_assoc]
      exact ⟨hlt, rfl⟩

theorem toNat_lt {value : Int64} {n : Nat} (h : toNat value = .ok n) : n < 2 ^ 63 := by
  rw [toNat] at h
  split_ifs at h with hneg
  have hlt := value.toInt_lt
  rw [← Except.ok.inj h]
  omega

theorem parseFile_length {b : Bencode} {file : File} (h : parseFile b = .ok file) :
    file.length < 2 ^ 63 := by
  simp only [parseFile, Except.bind_eq_ok] at h
  obtain ⟨n, -, length, hlength, items, -, path, -, hfile⟩ := h
  rw [← Except.ok.inj hfile]
  exact toNat_lt hlength

theorem parseMode_lengths {info : Bencode} {mode : Mode} (h : parseMode info = .ok mode) :
    (∀ length, mode = .single length → length < 2 ^ 63) ∧
    ∀ files, mode = .multiple files → ∀ file ∈ files, file.length < 2 ^ 63 := by
  rw [parseMode] at h
  split at h
  · obtain ⟨n, hn, rfl⟩ := Except.map_eq_ok.mp h
    refine ⟨fun length hlength => ?_, by simp⟩
    rw [← Mode.single.inj hlength]
    exact toNat_lt hn
  · contradiction
  · obtain ⟨items, -, hfiles⟩ := Except.bind_eq_ok.mp h
    obtain ⟨files, hparsed, rfl⟩ := Except.map_eq_ok.mp hfiles
    refine ⟨by simp, fun other hother file hfile => ?_⟩
    rw [← Mode.multiple.inj hother] at hfile
    obtain ⟨b, -, hb⟩ := Except.mapM_ok_mem hparsed hfile
    exact parseFile_length hb

theorem built_bounds {sha1 : Sha1} {data : Bytes} {m : Metainfo} (h : built sha1 data = .ok m) :
    m.pieceLength < 2 ^ 63 ∧ ∀ n ∈ m.fileLengths, n < 2 ^ 63 := by
  obtain ⟨root, announce, info, parts, -, -, -, hparts, rfl⟩ := built_eq_ok.mp h
  simp only [parseInfo, Except.bind_eq_ok] at hparts
  obtain ⟨name, -, value, -, pieceLength, hlength, bytes, -, pieces, -, mode, hmode, hparts⟩ :=
    hparts
  rw [← Except.ok.inj hparts]
  refine ⟨toNat_lt hlength, ?_⟩
  obtain ⟨hsingle, hmultiple⟩ := parseMode_lengths hmode
  cases mode with
  | single length =>
    simp only [fileLengths, assemble, List.forall_mem_singleton]
    exact hsingle length rfl
  | multiple files =>
    simp only [fileLengths, assemble, List.forall_mem_map]
    exact hmultiple files rfl

def DigitsFit (digits n count : Nat) : Prop := 0 < n → n.size + Nat.clog 2 count ≤ digits

theorem DigitsFit.mul_lt {digits n count : Nat} (h : DigitsFit digits n count) :
    n * count < 2 ^ digits := by
  rcases Nat.eq_zero_or_pos n with rfl | hpos
  · rw [Nat.zero_mul]
    exact Nat.two_pow_pos digits
  calc n * count
      ≤ n * 2 ^ Nat.clog 2 count := Nat.mul_le_mul_left n (Nat.le_pow_clog Nat.one_lt_two count)
    _ < 2 ^ n.size * 2 ^ Nat.clog 2 count :=
        Nat.mul_lt_mul_of_pos_right n.lt_size_self (Nat.two_pow_pos _)
    _ = 2 ^ (n.size + Nat.clog 2 count) := (pow_add _ _ _).symm
    _ ≤ 2 ^ digits := Nat.pow_le_pow_right Nat.two_pos (h hpos)

theorem DigitsFit.of_mul_lt {digits n count : Nat} (hn : n < 2 ^ digits)
    (h : n * count < 2 ^ digits) : DigitsFit (digits + 1) n count := by
  intro hpos
  have hlow : 2 ^ (n.size - 1) ≤ n := Nat.lt_size.mp (Nat.pred_lt (Nat.size_pos.mpr hpos).ne')
  rcases Nat.lt_or_ge 1 count with hmany | hfew
  · have hhigh : 2 ^ (Nat.clog 2 count - 1) < count :=
      Nat.pow_pred_clog_lt_self Nat.one_lt_two hmany
    have hprod : 2 ^ (n.size - 1 + (Nat.clog 2 count - 1)) < 2 ^ digits := by
      rw [pow_add]
      exact (Nat.mul_le_mul hlow hhigh.le).trans_lt h
    have hexp := (Nat.pow_lt_pow_iff_right Nat.one_lt_two).mp hprod
    omega
  · have hsize : n.size ≤ digits := Nat.size_le.mpr hn
    rw [Nat.clog_of_right_le_one hfew]
    omega

theorem sum_lt_of_digitsFit {digits : Nat} {lengths : List Nat}
    (h : ∀ n ∈ lengths, DigitsFit digits n lengths.length) : lengths.sum < 2 ^ digits := by
  rcases lengths.eq_nil_or_concat' with rfl | ⟨before, last, hconcat⟩
  · exact Nat.two_pow_pos digits
  obtain ⟨longest, hlongest, hmax⟩ := lengths.toFinset.exists_max_image id ⟨last, by simp [hconcat]⟩
  have hsum : lengths.sum ≤ lengths.length * longest :=
    List.sum_le_card_nsmul lengths longest fun n hn => hmax n (List.mem_toFinset.mpr hn)
  rw [Nat.mul_comm] at hsum
  exact hsum.trans_lt (h longest (List.mem_toFinset.mp hlongest)).mul_lt

theorem countP_mul_le_sum (lengths : List Nat) (n : Nat) :
    n * lengths.countP (n ≤ ·) ≤ lengths.sum := by
  induction lengths with
  | nil => exact Nat.zero_le _
  | cons k lengths ih =>
    rw [List.countP_cons, List.sum_cons, Nat.mul_add]
    split_ifs with hle
    · have hk : n ≤ k := of_decide_eq_true hle
      omega
    · omega

theorem checkedTotal_eq_some {m : Metainfo} (h : ∀ n ∈ m.fileLengths, n < 2 ^ 63) :
    m.checkedTotal = some m.fileLengths.sum ↔ m.fileLengths.sum < 2 ^ 64 := by
  unfold checkedTotal fileLengths at *
  cases hmode : m.mode with
  | single length =>
    rw [hmode] at h
    have hlt := h length (List.mem_singleton_self _)
    simp only [List.sum_singleton, true_iff]
    omega
  | multiple files =>
    simp only
    rw [foldlM_checkedAdd (by decide), Nat.zero_add, and_iff_left rfl]

structure SizesHold (sha1 : Sha1) (data : Bytes) : Prop where
  total : ∀ m, built sha1 data = .ok m →
    m.fileLengths.sum < 2 ^ 64 ∧ m.checkedTotal = some m.fileLengths.sum
  expected : ∀ m, built sha1 data = .ok m → m.pieceLength * m.pieces.length < 2 ^ 64 ∧
    m.checkedExpected = some (m.pieceLength * m.pieces.length)
  accepted : ∀ m, tryFrom sha1 data = .ok m → m.fileLengths.sum ≤ maxTorrentSize

theorem SizesHold.of_arithmetic {sha1 : Sha1} {data : Bytes}
    (h : ∀ m, built sha1 data = .ok m →
      m.fileLengths.sum < 2 ^ 64 ∧ m.pieceLength * m.pieces.length < 2 ^ 64) :
    SizesHold sha1 data where
  total := fun m hm => ⟨(h m hm).1, (checkedTotal_eq_some (built_bounds hm).2).mpr (h m hm).1⟩
  expected := fun m hm =>
    ⟨(h m hm).2, DiskStorage.checkedMul_eq_some.mpr ⟨(h m hm).2, rfl⟩⟩
  accepted := fun m hm => by
    obtain ⟨hbuilt, hvalid⟩ := tryFrom_eq_ok_iff_built.mp hm
    rw [← totalSize_eq_sum (h m hbuilt).1]
    exact ((validate_ok_iff m).mp hvalid).2

theorem sizes_hold_by_digits (sha1 : Sha1) (data : Bytes) :
    ((∀ m, built sha1 data = .ok m → DigitsFit 64 m.pieceLength m.pieces.length ∧
      ∀ n ∈ m.fileLengths, DigitsFit 64 n m.fileLengths.length) → SizesHold sha1 data) ∧
    (SizesHold sha1 data → ∀ m, built sha1 data = .ok m →
      DigitsFit 65 m.pieceLength m.pieces.length ∧
      ∀ n ∈ m.fileLengths, DigitsFit 65 n (m.fileLengths.countP (n ≤ ·))) := by
  constructor
  · intro hfits
    refine .of_arithmetic fun m hm => ?_
    obtain ⟨hpieces, hfiles⟩ := hfits m hm
    exact ⟨sum_lt_of_digitsFit hfiles, hpieces.mul_lt⟩
  · intro hsizes m hm
    obtain ⟨hpiece, hfile⟩ := built_bounds hm
    refine ⟨.of_mul_lt (by omega) (hsizes.expected m hm).1, fun n hn => ?_⟩
    have hlt := hfile n hn
    have hsum := (countP_mul_le_sum m.fileLengths n).trans_lt (hsizes.total m hm).1
    exact .of_mul_lt (by omega) hsum

end Metainfo

namespace Sample

def hugeFiles : Bytes :=
  ByteStr "d8:announce1:u4:infod5:filesl" ++
    ByteStr "d6:lengthi9223372036854775807e4:pathl1:aee" ++
    ByteStr "d6:lengthi9223372036854775807e4:pathl1:bee" ++
    ByteStr "d6:lengthi7e4:pathl1:ceee4:name1:n12:piece lengthi10e6:pieces20:" ++
    List.replicate 20 0 ++ ByteStr "ee"

def unequalFiles : Bytes :=
  ByteStr "d8:announce1:u4:infod5:filesl" ++
    ByteStr "d6:lengthi30e4:pathl1:aeed6:lengthi10e4:pathl1:bee" ++
    ByteStr "d6:lengthi5e4:pathl1:ceee4:name1:n12:piece lengthi20e6:pieces60:" ++
    List.replicate 60 0 ++ ByteStr "ee"

end Sample

namespace Metainfo

theorem unequal_files_hold : SizesHold Sample.sha1 Sample.unequalFiles ∧
    ∃ m, tryFrom Sample.sha1 Sample.unequalFiles = .ok m ∧ m.fileLengths = [30, 10, 5] ∧
      m.pieceLength * m.pieces.length = 60 := by
  have hchecked : (tryFrom Sample.sha1 Sample.unequalFiles).toOption.any (fun m =>
      decide (m.fileLengths = [30, 10, 5] ∧ m.pieceLength = 20 ∧ m.pieces.length = 3)) = true := by
    decide +kernel
  obtain ⟨m, hm, hfacts⟩ := Except.exists_ok hchecked
  obtain ⟨hfiles, hpiece, hpieces⟩ := of_decide_eq_true hfacts
  refine ⟨(sizes_hold_by_digits _ _).1 fun other hother => ?_, m, hm, hfiles,
    by rw [hpiece, hpieces]⟩
  have hbuilt := (tryFrom_eq_ok_iff_built.mp hm).1
  rw [hother] at hbuilt
  obtain rfl := Except.ok.inj hbuilt
  rw [hfiles, hpiece, hpieces]
  constructor
  · intro _
    decide
  · simp only [List.forall_mem_cons, DigitsFit]
    decide

theorem huge_torrent_accepted : ¬ ∀ (sha1 : Sha1) (data : Bytes), SizesHold sha1 data := by
  intro hall
  have hchecked : (tryFrom Sample.sha1 Sample.hugeFiles).toOption.any
      (fun m => decide (maxTorrentSize < m.fileLengths.sum)) = true := by
    decide +kernel
  obtain ⟨m, hm, hover⟩ := Except.exists_ok hchecked
  exact absurd ((hall _ _).accepted m hm) (not_le.mpr (of_decide_eq_true hover))

end Metainfo

end Tortue
