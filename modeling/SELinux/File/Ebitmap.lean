/-
  SELinux.File.Ebitmap — bitmaps in a policy file (`libsepol/src/ebitmap.c`: `ebitmap_read`;
  `write.c`: `ebitmap_write`).

  A bitmap is its map size, the end of the bitmap, the number of its maps and the maps. The
  reader checks that the maps are in order and lie before the end; it does not check that the
  last one reaches the end, so a bitmap from a file may be longer than one that was built by
  `ebitmap_set_bit` (`Readable`, against `Ebitmap.WF`).

  `ebitmap_read` returns -1 when the file ends, and -EINVAL for a bitmap it refuses. Only the
  readers of scope indices tell the two apart, and take the second for success.

  The number of maps is not looked at either where the end is 0: the maps that the header then
  announces are left in the file.

  Proved: `ebitmapRead_readable`, what is read is readable, and `reads_ebitmapWrite`, what is
  readable is read back, so that bitmaps that were built are told apart by their bytes
  (`ebitmapWrite_roundTrip`). What is read is well-formed, and its bytes are those that the
  header announces, when the header's end is that of the last map in the file
  (`ebitmapReadRc_wf_iff`), and only then (`ebitmapReadRc_loose`).
-/
import SELinux.Db.Ebitmap
import SELinux.Lib.Wire

namespace SELinux.File

open Db Lib.Wire List Option

variable {e : Ebitmap} {l : List EbitmapNode} {s s' : Bytes} {last : Option Nat} {i : Nat}

/-- The loop over the maps, of which `last` is the start bit of the one before. -/
def readNodes (highbit : Nat) : Nat → Option Nat → Reader (Option (List EbitmapNode))
  | 0, _ => pure (some [])
  | count + 1, last => do
    let startbit ← num 4
    if startbit % mapsize ≠ 0 then pure none
    else if highbit - mapsize < startbit then pure none
    else do
      let map ← word 64
      if map = 0#64 then pure none
      else if last.any (startbit ≤ ·) then pure none
      else do
        let rest ← readNodes highbit count (some startbit)
        return rest.map (⟨startbit, map⟩ :: ·)

/-- `ebitmap_read`, with `none` for -EINVAL. -/
def ebitmapReadRc : Reader (Option Ebitmap) := do
  let size ← num 4
  let highbit ← num 4
  let count ← num 4
  if size ≠ mapsize then pure none
  else if highbit = 0 then pure (some {})
  else if highbit % mapsize ≠ 0 then pure none
  else do
    let node ← readNodes highbit count none
    return node.map ({ node := ·, highbit })

def ebitmapRead : Reader Ebitmap := ebitmapReadRc >>= ofOption

def EbitmapNode.bytes (n : EbitmapNode) : Bytes := toBytes 4 n.startbit ++ putWord n.map

def ebitmapWrite (e : Ebitmap) : Bytes :=
  toBytes 4 mapsize ++ (toBytes 4 e.highbit ++ (toBytes 4 e.node.length ++ e.node.flatMap EbitmapNode.bytes))

/-- A bitmap whose maps lie before its end. -/
structure Readable (e : Ebitmap) : Prop extends NodesWF e.node where
  inside : ∀ n ∈ e.node, n.startbit + mapsize ≤ e.highbit
  ends : mapsize ∣ e.highbit
  short : e.highbit < 2 ^ 32

theorem Readable.empty : Readable {} :=
  ⟨⟨forall_mem_nil _, List.Pairwise.nil, forall_mem_nil _, forall_mem_nil _⟩, forall_mem_nil _,
    Nat.dvd_zero _, by decide⟩

theorem readable_of_wf (h : e.WF) : Readable e := by
  have hend : mapsize ∣ nodesEnd e.node ∧ nodesEnd e.node < 2 ^ 32 := by
    unfold nodesEnd
    cases hn : e.node.getLast? with
    | none => exact ⟨Nat.dvd_zero _, by decide⟩
    | some n =>
      have hn := mem_of_getLast? hn
      exact ⟨Nat.dvd_add (h.aligned n hn) (Nat.dvd_refl _), h.narrow n hn⟩
  rw [← h.high] at hend
  exact ⟨h.toNodesWF, fun n hn => h.high ▸ h.apart.end_le_nodesEnd hn, hend.1, hend.2⟩

variable {highbit : Nat}

/-- What is not refused with -EINVAL. -/
theorem refuse_some {α : Type} {a : α} {c : Prop} [Decidable c] {r : Reader (Option α)} :
    (if c then pure none else r : Reader (Option α)) s = some (some a, s') ↔ ¬c ∧ r s = some (some a, s') := by
  split <;> simp [*, pure_some]

/-- A map that was read, with what was checked of it. -/
theorem readNodes_succ {count : Nat} (h : readNodes highbit (count + 1) last s = some (some l, s')) :
    ∃ n l' t, l = n :: l' ∧ s = EbitmapNode.bytes n ++ t ∧ readNodes highbit count (some n.startbit) t = some (some l', s') ∧
      mapsize ∣ n.startbit ∧ n.startbit ≤ highbit - mapsize ∧ n.map ≠ 0#64 ∧ ∀ b ∈ last, b < n.startbit := by
  obtain ⟨startbit, t, hstart, h⟩ := bind_some.mp h
  obtain ⟨haligned, h⟩ := refuse_some.mp h
  obtain ⟨hinside, h⟩ := refuse_some.mp h
  obtain ⟨map, t', hmap, h⟩ := bind_some.mp h
  obtain ⟨hne, h⟩ := refuse_some.mp h
  obtain ⟨hlast, h⟩ := refuse_some.mp h
  obtain ⟨rest, t'', hrest, h⟩ := bind_some.mp h
  obtain ⟨hcons, rfl⟩ := pure_some.mp h
  obtain ⟨l', rfl, rfl⟩ := map_eq_some_iff.mp hcons
  obtain ⟨-, rfl⟩ := num_eq_some hstart
  refine ⟨⟨startbit, map⟩, l', t', rfl, ?_, hrest, Nat.dvd_of_mod_eq_zero (not_not.mp haligned),
    Nat.not_lt.mp hinside, hne, ?_⟩
  · rw [EbitmapNode.bytes, word_eq_some (by decide) hmap, append_assoc]
  · intro b hb
    cases hb
    simpa using hlast

theorem readNodes_readable (h0 : highbit ≠ 0) (hends : mapsize ∣ highbit) (hshort : highbit < 2 ^ 32) {count : Nat}
    (h : readNodes highbit count last s = some (some l, s')) :
    NodesWF l ∧ (∀ n ∈ l, n.startbit + mapsize ≤ highbit) ∧ ∀ n ∈ l, ∀ b ∈ last, b < n.startbit := by
  induction count generalizing last s s' l with
  | zero =>
    obtain ⟨heq, -⟩ := pure_some.mp h
    cases heq
    exact ⟨Readable.empty.toNodesWF, forall_mem_nil _, forall_mem_nil _⟩
  | succ count ih =>
    obtain ⟨n, l', t, rfl, -, hrest, haligned, hinside, hmap, hlast⟩ := readNodes_succ h
    obtain ⟨hwf, hin, hafter⟩ := ih hrest
    have hle : n.startbit + mapsize ≤ highbit := by
      have := Nat.le_of_dvd (Nat.pos_of_ne_zero h0) hends
      omega
    refine ⟨NodesWF.cons haligned hmap (Nat.lt_of_le_of_lt hle hshort) (fun m hm => hafter m hm n.startbit rfl) hwf,
      forall_mem_cons.mpr ⟨hle, hin⟩, ?_⟩
    exact forall_mem_cons.mpr ⟨hlast, fun m hm b hb => Nat.lt_trans (hlast b hb) (hafter m hm n.startbit rfl)⟩

theorem readNodes_bytes {count : Nat} (h : readNodes highbit count last s = some (some l, s')) :
    l.length = count ∧ s = l.flatMap EbitmapNode.bytes ++ s' := by
  induction count generalizing last s s' l with
  | zero =>
    obtain ⟨heq, rfl⟩ := pure_some.mp h
    cases heq
    exact ⟨rfl, rfl⟩
  | succ count ih =>
    obtain ⟨n, l', t, rfl, rfl, hrest, -⟩ := readNodes_succ h
    obtain ⟨hlength, rfl⟩ := ih hrest
    exact ⟨by rw [length_cons, hlength], by rw [flatMap_cons, append_assoc]⟩

/-- What was read: the empty bitmap, whose maps are not looked at, or the bitmap as it is written. -/
theorem ebitmapReadRc_some (h : ebitmapReadRc s = some (some e, s')) :
    (e = {} ∧ ∃ count < 2 ^ 32, s = toBytes 4 mapsize ++ (toBytes 4 0 ++ (toBytes 4 count ++ s'))) ∨
      (e.highbit ≠ 0 ∧ s = ebitmapWrite e ++ s' ∧ Readable e) := by
  obtain ⟨size, t, hsize, h⟩ := bind_some.mp h
  obtain ⟨highbit, t₁, hhigh, h⟩ := bind_some.mp h
  obtain ⟨count, t₂, hcount, h⟩ := bind_some.mp h
  obtain ⟨-, hs⟩ := num_eq_some hsize
  obtain ⟨hshort, ht⟩ := num_eq_some hhigh
  obtain ⟨hlt, ht₁⟩ := num_eq_some hcount
  rw [hs, ht, ht₁]
  obtain ⟨hsize, h⟩ := refuse_some.mp h
  rw [not_not.mp hsize]
  split at h
  next h0 =>
    obtain ⟨heq, rfl⟩ := pure_some.mp h
    cases heq
    exact Or.inl ⟨rfl, count, hlt, by rw [h0]⟩
  rename_i h0
  obtain ⟨hends, h⟩ := refuse_some.mp h
  have hends := Nat.dvd_of_mod_eq_zero (not_not.mp hends)
  obtain ⟨node, t₃, hnode, h⟩ := bind_some.mp h
  obtain ⟨hmap, rfl⟩ := pure_some.mp h
  obtain ⟨l, rfl, rfl⟩ := map_eq_some_iff.mp hmap
  obtain ⟨hlength, ht₂⟩ := readNodes_bytes hnode
  obtain ⟨hwf, hin, -⟩ := readNodes_readable h0 hends hshort hnode
  refine Or.inr ⟨h0, ?_, hwf, hin, hends, hshort⟩
  rw [ht₂, ← hlength]
  simp only [ebitmapWrite, append_assoc]

theorem ebitmapReadRc_readable (h : ebitmapReadRc s = some (some e, s')) : Readable e := by
  rcases ebitmapReadRc_some h with ⟨rfl, -⟩ | ⟨-, -, hreadable⟩
  · exact Readable.empty
  · exact hreadable

theorem ebitmapRead_readable (h : ebitmapRead s = some (e, s')) : Readable e := by
  obtain ⟨r, t, hr, h⟩ := bind_some.mp h
  obtain ⟨rfl, rfl⟩ := ofOption_some.mp h
  exact ebitmapReadRc_readable hr

/-! ## Reading back -/

theorem reads_readNodes (hwf : NodesWF l) (hin : ∀ n ∈ l, n.startbit + mapsize ≤ highbit)
    (hlast : ∀ n ∈ l, ∀ b ∈ last, b < n.startbit) :
    Reads (readNodes highbit l.length last) (l.flatMap EbitmapNode.bytes) (some l) := by
  induction l generalizing last with
  | nil => exact Reads.pure _
  | cons n l ih =>
    obtain ⟨hsort, haligned, hmap, hnarrow⟩ := hwf.head
    have hinside := hin n mem_cons_self
    have hrest : Reads (readNodes highbit l.length (some n.startbit)) (l.flatMap EbitmapNode.bytes) (some l) :=
      ih hwf.tail (by grind) (by grind)
    have hfirst : ¬last.any (n.startbit ≤ ·) = true := by
      cases last <;> simp_all
    show Reads (readNodes highbit (l.length + 1) last)
      ((toBytes 4 n.startbit ++ putWord n.map) ++ l.flatMap EbitmapNode.bytes) _
    refine (reads_num (by omega)).bind ?_
    rw [if_neg (not_not.mpr (Nat.mod_eq_zero_of_dvd haligned)), if_neg (by omega)]
    refine (reads_word (by decide) n.map).bind ?_
    rw [if_neg hmap, if_neg hfirst, ← append_nil (l.flatMap EbitmapNode.bytes)]
    exact hrest.bind (Reads.pure _)

theorem Readable.count (h : Readable e) : e.node.length * mapsize ≤ e.highbit := by
  -- each map starts past those before it
  have hall : ∀ (l : List EbitmapNode) (k : Nat), Apart l → (∀ n ∈ l, k ≤ n.startbit ∧ n.startbit + mapsize ≤ e.highbit) →
      k + l.length * mapsize ≤ max k e.highbit := by
    intro l
    induction l with
    | nil => grind
    | cons n l ih =>
      intro k ha hk
      have hrest := ih (n.startbit + mapsize) ha.tail fun m hm =>
        ⟨(pairwise_cons.mp ha).1 m hm, (hk m (mem_cons_of_mem n hm)).2⟩
      have hn := hk n mem_cons_self
      rw [length_cons, Nat.add_one_mul]
      omega
  have hzero := hall e.node 0 h.apart fun n hn => ⟨Nat.zero_le _, h.inside n hn⟩
  omega

theorem Readable.length_lt (h : Readable e) : e.node.length < 2 ^ 32 :=
  Nat.lt_of_le_of_lt (Nat.le_trans (Nat.le_mul_of_pos_right _ (by decide)) h.count) h.short

theorem reads_ebitmapWriteRc (h : Readable e) : Reads ebitmapReadRc (ebitmapWrite e) (some e) := by
  refine (reads_num (by decide)).bind ((reads_num h.short).bind ((reads_num h.length_lt).bind ?_))
  by_cases h0 : e.highbit = 0
  · have hnil : e.node = [] := by
      refine eq_nil_iff_forall_not_mem.mpr fun n hn => ?_
      have := h.inside n hn
      simp only [mapsize] at this
      omega
    obtain ⟨node, highbit⟩ := e
    cases h0
    cases hnil
    exact Reads.pure _
  · rw [if_neg h0, if_neg (not_not.mpr (Nat.mod_eq_zero_of_dvd h.ends)), ← append_nil (e.node.flatMap EbitmapNode.bytes)]
    exact (reads_readNodes h.toNodesWF h.inside (fun _ _ _ hb => (not_mem_none _ hb).elim)).bind (Reads.pure _)

/-- A readable bitmap is read back. -/
theorem reads_ebitmapWrite (h : Readable e) : Reads ebitmapRead (ebitmapWrite e) e := by
  rw [← append_nil (ebitmapWrite e)]
  exact (reads_ebitmapWriteRc h).bind (reads_ofOption rfl)

/-- What was built is read back, and no two bitmaps have the same bytes. -/
theorem ebitmapWrite_roundTrip {e : Ebitmap} (h : e.WF) :
    (∀ rest, ebitmapReadRc (ebitmapWrite e ++ rest) = some (some e, rest)) ∧
      ∀ f : Ebitmap, f.WF → ebitmapWrite f = ebitmapWrite e → f = e := by
  have hback := reads_ebitmapWriteRc (readable_of_wf h)
  refine ⟨hback, ?_⟩
  intro f hf heq
  have hf := reads_ebitmapWriteRc (readable_of_wf hf) []
  rw [heq, hback []] at hf
  cases hf
  rfl

/-- The last two maps there can be. -/
theorem ebitmapWrite_roundTrip_high :
    ebitmapReadRc (ebitmapWrite ⟨[⟨2 ^ 32 - 192, 1#64⟩, ⟨2 ^ 32 - 128, 1#64 <<< 63⟩], 2 ^ 32 - 64⟩) =
      some (some ⟨[⟨2 ^ 32 - 192, 1#64⟩, ⟨2 ^ 32 - 128, 1#64 <<< 63⟩], 2 ^ 32 - 64⟩, []) := by
  have hwf : (⟨[⟨2 ^ 32 - 192, 1#64⟩, ⟨2 ^ 32 - 128, 1#64 <<< 63⟩], 2 ^ 32 - 64⟩ : Ebitmap).WF :=
    ⟨⟨by decide, by decide, by decide, by decide⟩, by decide⟩
  have h := (ebitmapWrite_roundTrip hwf).1 []
  rwa [append_nil] at h

/-! ## What the header announces -/

/-- The `uint32_t` at a position of the file. -/
def numAt (s : Bytes) (k : Nat) : Nat := ofBytes ((s.drop k).take 4)

def announcedEnd (s : Bytes) : Nat := numAt s 4

def announcedCount (s : Bytes) : Nat := numAt s 8

/-- The header is three numbers, each map a number and 64 bits. -/
def announcedLength (s : Bytes) : Nat := 12 + 12 * announcedCount s

/-- Where the last of the announced maps ends, by its own start bit. -/
def lastMapEnd (s : Bytes) : Nat := if announcedCount s = 0 then 0 else numAt s (announcedLength s - 12) + mapsize

theorem numAt_append {b t : Bytes} {k : Nat} (h : b.length = k) {x : Nat} (hx : x < 2 ^ 32) :
    numAt (b ++ (toBytes 4 x ++ t)) k = x := by
  rw [numAt, drop_left' h, take_left' (length_toBytes 4 x)]
  exact ofBytes_toBytes hx

theorem announced_header (size : Nat) {count : Nat} (hhigh : highbit < 2 ^ 32) (hcount : count < 2 ^ 32) (t : Bytes) :
    announcedEnd (toBytes 4 size ++ (toBytes 4 highbit ++ (toBytes 4 count ++ t))) = highbit ∧
      announcedCount (toBytes 4 size ++ (toBytes 4 highbit ++ (toBytes 4 count ++ t))) = count := by
  refine ⟨numAt_append (length_toBytes 4 size) hhigh, ?_⟩
  exact numAt_append (by simp) hcount

theorem length_nodesBytes (l : List EbitmapNode) : (l.flatMap EbitmapNode.bytes).length = 12 * l.length := by
  induction l with
  | nil => rfl
  | cons n l ih =>
    have hn : (EbitmapNode.bytes n).length = 12 := by simp [EbitmapNode.bytes, putWord]
    rw [flatMap_cons, length_append, length_cons]
    omega

theorem length_ebitmapWrite (e : Ebitmap) : (ebitmapWrite e).length = 12 + 12 * e.node.length := by
  simp only [ebitmapWrite, length_append, length_toBytes, length_nodesBytes]
  omega

/-- In the bytes of a bitmap the last map's start bit stands where it is looked for. -/
theorem lastMapEnd_write (h : Readable e) (t : Bytes) : lastMapEnd (ebitmapWrite e ++ t) = nodesEnd e.node := by
  have hhead : announcedCount (ebitmapWrite e ++ t) = e.node.length := by
    exact (announced_header _ h.short h.length_lt _).2
  unfold lastMapEnd announcedLength
  rw [hhead]
  rcases eq_nil_or_concat e.node with hnil | ⟨l, n, hlast⟩
  · rw [hnil]
    rfl
  · rw [concat_eq_append] at hlast
    have hn : n ∈ e.node := by rw [hlast]; simp
    have hnarrow := h.narrow n hn
    have hsplit : ebitmapWrite e ++ t = (toBytes 4 mapsize ++ toBytes 4 e.highbit ++ toBytes 4 e.node.length ++
        l.flatMap EbitmapNode.bytes) ++ (toBytes 4 n.startbit ++ (putWord n.map ++ t)) := by
      simp only [ebitmapWrite, hlast, flatMap_append, flatMap_cons, flatMap_nil, EbitmapNode.bytes,
        append_assoc, append_nil]
    have hlength : e.node.length = l.length + 1 := by rw [hlast, length_append, length_singleton]
    rw [if_neg (by omega), hsplit, numAt_append ?_ (by omega), nodesEnd, hlast, List.getLast?_concat]
    · rfl
    · simp only [length_append, length_toBytes, length_nodesBytes]
      omega

theorem nodesEnd_eq_zero : nodesEnd l = 0 ↔ l = [] := by
  unfold nodesEnd
  cases hlast : l.getLast? with
  | none => exact iff_of_true rfl (List.getLast?_eq_none_iff.mp hlast)
  | some n =>
    refine iff_of_false ?_ ?_
    · show ¬ n.startbit + mapsize = 0
      simp only [mapsize]
      omega
    · rintro rfl
      cases hlast

/-- What is read is well-formed, from the bytes the header announces, exactly when the end that
    the header announces is the end of the last map it announces. -/
theorem ebitmapReadRc_wf_iff {s s' : Bytes} {e : Ebitmap} (h : ebitmapReadRc s = some (some e, s')) :
    (e.WF ∧ (e.highbit = 0 ↔ e.node = []) ∧ announcedLength s ≤ s.length ∧ s' = s.drop (announcedLength s)) ↔
      announcedEnd s = lastMapEnd s := by
  rcases ebitmapReadRc_some h with ⟨rfl, count, hcount, rfl⟩ | ⟨h0, rfl, hreadable⟩
  · -- the end is 0, and the maps are not read
    obtain ⟨hend, hc⟩ := announced_header mapsize (show 0 < 2 ^ 32 by decide) hcount s'
    unfold lastMapEnd announcedLength
    rw [hend, hc]
    simp only [length_append, length_toBytes]
    constructor
    · rintro ⟨-, -, hle, hdrop⟩
      have hlength := congrArg List.length hdrop
      simp only [length_drop, length_append, length_toBytes] at hlength
      rw [if_pos (by omega)]
    · intro hlast
      by_cases hzero : count = 0
      · subst hzero
        exact ⟨Ebitmap.WF.empty, trivial, by omega, rfl⟩
      · rw [if_neg hzero] at hlast
        simp only [mapsize] at hlast
        omega
  · obtain ⟨hend, hc⟩ : announcedEnd (ebitmapWrite e ++ s') = e.highbit ∧
      announcedCount (ebitmapWrite e ++ s') = e.node.length := by
      exact announced_header _ hreadable.short hreadable.length_lt _
    have hlength : announcedLength (ebitmapWrite e ++ s') = (ebitmapWrite e).length := by
      rw [announcedLength, hc, length_ebitmapWrite]
    rw [hend, lastMapEnd_write hreadable, hlength]
    constructor
    · exact fun hwf => hwf.1.high
    · intro hhigh
      refine ⟨{ hreadable.toNodesWF with high := hhigh }, by rw [hhigh]; exact nodesEnd_eq_zero, ?_, drop_left.symm⟩
      rw [length_append]
      exact Nat.le_add_right _ _

/-- The bit 0 in a bitmap that is said to end at 64, and three more bytes. -/
theorem ebitmapReadRc_wf_iff_bit :
    ∃ e, ebitmapReadRc (ebitmapWrite ⟨[⟨0, 1#64⟩], 64⟩ ++ toBytes 3 0) = some (some e, toBytes 3 0) ∧ e.WF := by
  have hread : ebitmapReadRc (ebitmapWrite ⟨[⟨0, 1#64⟩], 64⟩ ++ toBytes 3 0) =
      some (some ⟨[⟨0, 1#64⟩], 64⟩, toBytes 3 0) := by
    decide +kernel
  exact ⟨_, hread, ((ebitmapReadRc_wf_iff hread).mpr (by decide +kernel)).1⟩

/-- A bitmap of the bit 0 that is said to end at 128 is accepted, although the same set is
    built with the end 64, and so is one that announces a map and the end 0. -/
theorem ebitmapReadRc_loose :
    (∃ e, ebitmapReadRc (toBytes 4 64 ++ (toBytes 4 128 ++ (toBytes 4 1 ++ (toBytes 4 0 ++ putWord 1#64)))) =
      some (some e, []) ∧
        ¬ e.WF ∧ ebitmapCmp e ⟨[⟨0, 1#64⟩], 64⟩ = false) ∧
      ebitmapReadRc (toBytes 4 64 ++ (toBytes 4 0 ++ (toBytes 4 1 ++ (toBytes 4 0 ++ putWord 1#64)))) =
        some (some {}, toBytes 4 0 ++ putWord 1#64) := by
  refine ⟨⟨⟨[⟨0, 1#64⟩], 128⟩, by decide +kernel, ?_, by decide⟩, by decide +kernel⟩
  intro hwf
  exact absurd hwf.high (by decide)

/-! ## The bits of a readable bitmap -/

theorem Readable.nodesEnd_le (h : Readable e) : nodesEnd e.node ≤ e.highbit := by
  unfold nodesEnd
  cases hn : e.node.getLast? with
  | none => exact Nat.zero_le _
  | some n => exact h.inside n (mem_of_getLast? hn)

theorem Readable.mem_bits (h : Readable e) : i ∈ ebitmapBits e ↔ Holds e.node i :=
  mem_bits_of_end h.apart h.nodesEnd_le

theorem Readable.mem_bits_of_getBit (h : Readable e) (hi : ebitmapGetBit e i = true) : i ∈ ebitmapBits e := by
  unfold ebitmapGetBit at hi
  split at hi
  · cases hi
  · exact h.mem_bits.mpr ((getBitFrom_iff h.apart i).mp hi)

/-- Also where the end lies past the last map, a bit that is set is one bit more. -/
theorem Readable.mem_bits_setBit {e e' : Ebitmap} (h : Readable e) {bit : Nat} (hs : ebitmapSetBit e bit true = some e') :
    i ∈ ebitmapBits e' ↔ i = bit ∨ i ∈ ebitmapBits e := by
  unfold ebitmapSetBit at hs
  split_ifs at hs with hbit
  cases hs
  have hnodes : ∀ l, endAfter none l = nodesEnd l := fun l => by cases l <;> rfl
  have hend := @endAfter_setBitFrom bit e.node true none
  rw [hnodes, hnodes] at hend
  have hle : nodesEnd (setBitFrom bit true none e.node).1 ≤ (setBitFrom bit true none e.node).2.getD e.highbit := by
    rw [← hend]
    cases (setBitFrom bit true none e.node).2 with
    | none => exact h.nodesEnd_le
    | some _ => exact Nat.le_refl _
  rw [mem_bits_of_end (setBitFrom_wf (by omega) h.toNodesWF).apart hle, holds_setBitFrom h.toNodesWF, h.mem_bits]
  by_cases hi : i = bit <;> simp [hi]

/-! ## Bitmaps of a file -/

/-- A bitmap as `ebitmap_read` returns it. -/
abbrev FileBitmap := { e : Ebitmap // Readable e }

namespace FileBitmap

def empty : FileBitmap := ⟨{}, Readable.empty⟩

def ofBitmap (e : { e : Ebitmap // e.WF }) : FileBitmap := ⟨e.1, readable_of_wf e.2⟩

def read : Reader FileBitmap := fun s =>
  match h : ebitmapRead s with
  | some (e, s') => some (⟨e, ebitmapRead_readable h⟩, s')
  | none => none

def write (e : FileBitmap) : Bytes := ebitmapWrite e.1

theorem reads (e : FileBitmap) : Reads read e.write e := by
  intro rest
  have h : ebitmapRead (e.write ++ rest) = some (e.1, rest) := reads_ebitmapWrite e.2 rest
  unfold read
  split
  next heq =>
    cases h.symm.trans heq
    rfl
  next heq => cases h.symm.trans heq

/-- `ebitmap_read` where only -1 is taken for an error: a bitmap that is refused is empty. -/
def readOrEmpty : Reader FileBitmap := fun s =>
  match h : ebitmapReadRc s with
  | some (some e, s') => some (⟨e, ebitmapReadRc_readable h⟩, s')
  | some (none, s') => some (empty, s')
  | none => none

end FileBitmap

end SELinux.File
