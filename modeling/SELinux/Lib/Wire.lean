/-
  SELinux.Lib.Wire — reading and writing binary files.

  A reader takes bytes off the front of its input and either rejects it or returns a value
  and what is left. Numbers are little-endian. `Reads r b a` says that `r` reads `a` from the
  bytes `b`, whatever follows them, and takes nothing else: the law of a writer and its
  reader, which goes through the reader's steps one by one (`Reads.bind`) and through its
  loops (`Reads.loop`). In the other direction, `Ensures r P` says that whatever `r` returns
  has `P`, and what a round of a loop keeps the loop keeps (`Ensures.loop`).
-/
import Mathlib

namespace SELinux.Lib.Wire

open List

abbrev Bytes := List (BitVec 8)

variable {s s' : Bytes} {n : Nat} {b : Bytes} {c : Bool}

/-- A reader; `none` is a rejected input. -/
abbrev Reader (α : Type) := StateT Bytes Option α

variable {α β σ : Type}

def reject : Reader α := fun _ => none

def check (c : Bool) : Reader Unit := if c then pure () else reject

def ofOption : Option α → Reader α
  | some a => pure a
  | none => reject

/-- The next `n` bytes. -/
def take (n : Nat) : Reader Bytes := fun s => if s.length < n then none else some (s.take n, s.drop n)

/-! ## Numbers -/

/-- The number as `n` bytes, low byte first. -/
def toBytes : Nat → Nat → Bytes
  | 0, _ => []
  | n + 1, x => BitVec.ofNat 8 x :: toBytes n (x / 256)

def ofBytes (l : Bytes) : Nat := l.foldr (fun b n => b.toNat + 256 * n) 0

@[simp] theorem length_toBytes (n x : Nat) : (toBytes n x).length = n := by
  induction n generalizing x with
  | zero => rfl
  | succ n ih => rw [toBytes, length_cons, ih]

variable {x : Nat}

theorem ofBytes_toBytes {n : Nat} (h : x < 256 ^ n) : ofBytes (toBytes n x) = x := by
  induction n generalizing x with
  | zero =>
    exact (Nat.lt_one_iff.mp h).symm
  | succ n ih =>
    have hdiv : x / 256 < 256 ^ n := by
      rw [Nat.div_lt_iff_lt_mul (by decide)]
      rwa [Nat.pow_succ] at h
    have hfold : ofBytes (toBytes (n + 1) x) = (BitVec.ofNat 8 x).toNat + 256 * ofBytes (toBytes n (x / 256)) := rfl
    rw [hfold, ih hdiv, BitVec.toNat_ofNat]
    omega

theorem ofBytes_lt (l : Bytes) : ofBytes l < 256 ^ l.length := by
  induction l with
  | nil => decide
  | cons b l ih =>
    have hcons : ofBytes (b :: l) = b.toNat + 256 * ofBytes l := rfl
    rw [length_cons]
    omega

theorem toBytes_ofBytes (l : Bytes) : toBytes l.length (ofBytes l) = l := by
  induction l with
  | nil => rfl
  | cons b l ih =>
    have hcons : ofBytes (b :: l) = b.toNat + 256 * ofBytes l := rfl
    have hdiv : (b.toNat + 256 * ofBytes l) / 256 = ofBytes l := by omega
    have hlow : BitVec.ofNat 8 (b.toNat + 256 * ofBytes l) = b := by
      apply BitVec.eq_of_toNat_eq
      rw [BitVec.toNat_ofNat]
      omega
    rw [length_cons, toBytes, hcons, hdiv, hlow, ih]

/-- A number of `n` bytes. -/
def num (n : Nat) : Reader Nat := ofBytes <$> take n

/-- The number of bytes of a word of `w` bits. -/
def word (w : Nat) : Reader (BitVec w) := BitVec.ofNat w <$> num (w / 8)

def putWord {w : Nat} (x : BitVec w) : Bytes := toBytes (w / 8) x.toNat

/-- A number as a word of `w` bits, cut to it. -/
def putNum (w n : Nat) : Bytes := putWord (BitVec.ofNat w n)

/-! ## Loops -/

/-- `for (i = 0; i < n; i++)` with a state. -/
def loop (f : σ → Reader σ) : Nat → σ → Reader σ
  | 0, s => pure s
  | n + 1, s => f s >>= loop f n

/-- `n` values one after the other. -/
def times (r : Reader α) : Nat → Reader (List α)
  | 0 => pure []
  | n + 1 => do
    let a ← r
    let l ← times r n
    return a :: l

/-! ## Inversion -/

theorem bind_apply (r : Reader α) (f : α → Reader β) (s : Bytes) : (r >>= f) s = (r s).bind fun e => f e.1 e.2 := rfl

variable {r : Reader α} {f : α → Reader β}

theorem bind_some {b : β} : (r >>= f) s = some (b, s') ↔ ∃ a t, r s = some (a, t) ∧ f a t = some (b, s') := by
  rw [bind_apply, Option.bind_eq_some_iff]
  exact ⟨fun ⟨⟨a, t⟩, h1, h2⟩ => ⟨a, t, h1, h2⟩, fun ⟨a, t, h1, h2⟩ => ⟨(a, t), h1, h2⟩⟩

variable {a : α}

theorem pure_some {b : α} : (pure a : Reader α) s = some (b, s') ↔ a = b ∧ s = s' := by
  show some (a, s) = _ ↔ _
  rw [Option.some.injEq, Prod.mk.injEq]

theorem map_some {f : α → β} {b : β} : (f <$> r) s = some (b, s') ↔ ∃ a, r s = some (a, s') ∧ f a = b := by
  rw [← bind_pure_comp, bind_some]
  constructor
  · rintro ⟨a, t, ha, hb⟩
    obtain ⟨rfl, rfl⟩ := pure_some.mp hb
    exact ⟨a, ha, rfl⟩
  · rintro ⟨a, ha, rfl⟩
    exact ⟨a, s', ha, pure_some.mpr ⟨rfl, rfl⟩⟩

theorem check_some {u : Unit} : check c s = some (u, s') ↔ c = true ∧ s = s' := by
  unfold check
  cases c with
  | true => rw [if_pos rfl, pure_some]; simp
  | false => simp [reject]

theorem ofOption_some {o : Option α} : ofOption o s = some (a, s') ↔ o = some a ∧ s = s' := by
  cases o with
  | none => simp [ofOption, reject]
  | some b => rw [ofOption, pure_some, Option.some.injEq]

theorem take_some {s s' b : Bytes} : take n s = some (b, s') ↔ b.length = n ∧ s = b ++ s' := by
  unfold take
  constructor
  · intro h
    split at h
    · cases h
    · cases h
      exact ⟨by rw [length_take]; omega, (take_append_drop n s).symm⟩
  · rintro ⟨rfl, rfl⟩
    rw [if_neg (by rw [length_append]; omega), take_left, drop_left]

/-- A number is read from its own bytes only. -/
theorem num_eq_some (h : num n s = some (x, s')) : x < 256 ^ n ∧ s = toBytes n x ++ s' := by
  obtain ⟨b, hb, rfl⟩ := map_some.mp h
  obtain ⟨rfl, rfl⟩ := take_some.mp hb
  exact ⟨ofBytes_lt b, by rw [toBytes_ofBytes]⟩

theorem word_eq_some {w : Nat} (hw : w = 8 * (w / 8)) {x : BitVec w} (h : word w s = some (x, s')) :
    s = putWord x ++ s' := by
  obtain ⟨n, hn, rfl⟩ := map_some.mp h
  obtain ⟨hlt, rfl⟩ := num_eq_some hn
  have hpow : 256 ^ (w / 8) = 2 ^ w := by rw [show 256 = 2 ^ 8 by decide, ← Nat.pow_mul, ← hw]
  rw [putWord, BitVec.toNat_ofNat, Nat.mod_eq_of_lt (hpow ▸ hlt)]

/-! ## Reading back -/

/-- The reader takes exactly `b` and returns `a`. -/
def Reads (r : Reader α) (b : Bytes) (a : α) : Prop := ∀ rest, r (b ++ rest) = some (a, rest)

theorem Reads.pure (a : α) : Reads (Pure.pure a) [] a := fun _ => rfl

theorem Reads.bind {b c : Bytes} {v : β} (hr : Reads r b a) (hf : Reads (f a) c v) : Reads (r >>= f) (b ++ c) v := by
  intro rest
  rw [append_assoc]
  exact bind_some.mpr ⟨a, c ++ rest, hr _, hf rest⟩

/-- A reader goes on behind what it has read. -/
theorem Reads.bind_eq (hr : Reads r b a) (f : α → Reader β) (rest : Bytes) : (r >>= f) (b ++ rest) = f a rest := by
  rw [bind_apply, hr rest]
  rfl

theorem ofOption_bind_eq (o : Option α) (f : α → Reader β) (s : Bytes) : (ofOption o >>= f) s = o.bind fun a => f a s := by
  cases o <;> rfl

theorem check_bind_eq (h : c = true) (f : Unit → Reader β) (s : Bytes) : (check c >>= f) s = f () s := by
  rw [h]
  rfl

/-- A step that takes nothing. -/
theorem Reads.andThen {c : Bytes} {v : β} (hr : Reads r [] a) (hf : Reads (f a) c v) : Reads (r >>= f) c v := hr.bind hf

/-- A last step that takes nothing. -/
theorem Reads.last {v : β} (hr : Reads r b a) (hf : Reads (f a) [] v) : Reads (r >>= f) b v := by
  have h := hr.bind hf
  rwa [append_nil] at h

theorem Reads.bind_pure (hr : Reads r b a) (f : α → β) :
    Reads (r >>= fun x => Pure.pure (f x)) b (f a) := hr.last (f := fun x => Pure.pure (f x)) (Reads.pure (f a))

theorem Reads.map (hr : Reads r b a) (f : α → β) : Reads (f <$> r) b (f a) :=
  fun rest => map_some.mpr ⟨a, hr rest, rfl⟩

theorem reads_check (h : c = true) : Reads (check c) [] () := fun _ => check_some.mpr ⟨h, rfl⟩

theorem reads_ofOption {o : Option α} (h : o = some a) : Reads (ofOption o) [] a := fun _ => ofOption_some.mpr ⟨h, rfl⟩

theorem reads_take (b : Bytes) : Reads (take b.length) b b := fun _ => take_some.mpr ⟨rfl, rfl⟩

theorem reads_num {n : Nat} (h : x < 256 ^ n) : Reads (num n) (toBytes n x) x := by
  have htake := reads_take (toBytes n x)
  rw [length_toBytes] at htake
  have hnum := htake.map ofBytes
  rwa [ofBytes_toBytes h] at hnum

theorem reads_word {w : Nat} (hw : w = 8 * (w / 8)) (x : BitVec w) : Reads (word w) (putWord x) x := by
  have hlt : x.toNat < 256 ^ (w / 8) := by
    have h := x.isLt
    rwa [show 2 ^ w = 256 ^ (w / 8) by rw [show 256 = 2 ^ 8 by decide, ← Nat.pow_mul, ← hw]] at h
  have h := (reads_num hlt).map (BitVec.ofNat w)
  rwa [BitVec.ofNat_toNat, BitVec.setWidth_eq] at h

variable {l : List α} {put : α → Bytes}

/-- A loop that reads what was written element by element. -/
theorem Reads.loop {f : σ → Reader σ} {step : σ → α → Option σ}
    (hf : ∀ x x', ∀ a ∈ l, step x a = some x' → Reads (f x) (put a) x') {x x' : σ}
    (h : l.foldlM step x = some x') : Reads (Wire.loop f l.length x) (l.flatMap put) x' := by
  induction l generalizing x with
  | nil =>
    cases h
    exact Reads.pure _
  | cons a l ih =>
    obtain ⟨y, hy, hrest⟩ := Option.bind_eq_some_iff.mp h
    exact (hf x y a mem_cons_self hy).bind (ih (fun x x' b hb => hf x x' b (mem_cons_of_mem a hb)) hrest)

/-- A loop whose rounds read what was written, or reject it, as `step` says. -/
theorem loop_eq {f : σ → Reader σ} {step : σ → α → Option σ}
    (hf : ∀ x, ∀ a ∈ l, ∀ rest, f x (put a ++ rest) = (step x a).map (·, rest)) (x : σ)
    (rest : Bytes) : Wire.loop f l.length x (l.flatMap put ++ rest) = (l.foldlM step x).map (·, rest) := by
  induction l generalizing x with
  | nil => rfl
  | cons a l ih =>
    rw [flatMap_cons, append_assoc, foldlM_cons]
    rw [length_cons, Wire.loop, bind_apply, hf x a mem_cons_self]
    cases step x a with
    | none => rfl
    | some y => exact ih (fun x b hb => hf x b (mem_cons_of_mem a hb)) y

/-- Values one after the other, each read as `f` of what was written. -/
theorem reads_times_map {r : Reader β} {f : α → β} (h : ∀ a ∈ l, Reads r (put a) (f a)) :
    Reads (times r l.length) (l.flatMap put) (l.map f) := by
  induction l with
  | nil => exact Reads.pure []
  | cons a l ih =>
    have hl := ih fun b hb => h b (mem_cons_of_mem a hb)
    exact (h a mem_cons_self).bind (hl.bind_pure (f a :: ·))

theorem reads_times (h : ∀ a ∈ l, Reads r (put a) a) : Reads (times r l.length) (l.flatMap put) l := by
  have hmap := reads_times_map (f := id) h
  rwa [map_id] at hmap

variable {P : α → Prop}

/-! ## What a reader ensures -/

/-- Whatever the reader returns has `P`. -/
def Ensures (r : Reader α) (P : α → Prop) : Prop := ∀ s a s', r s = some (a, s') → P a

theorem Ensures.pure (h : P a) : Ensures (Pure.pure a) P := by
  intro s b s' hb
  obtain ⟨rfl, -⟩ := pure_some.mp hb
  exact h

theorem Ensures.bind {Q : β → Prop} (hr : Ensures r P) (hf : ∀ a, P a → Ensures (f a) Q) : Ensures (r >>= f) Q := by
  intro s b s' h
  obtain ⟨a, t, ha, hb⟩ := bind_some.mp h
  exact hf a (hr s a t ha) t b s' hb

/-- A step of which nothing is needed. -/
theorem Ensures.andThen {Q : β → Prop} (hf : ∀ a, Ensures (f a) Q) : Ensures (r >>= f) Q :=
  Ensures.bind (P := fun _ => True) (fun _ _ _ _ => trivial) fun a _ => hf a

theorem ensures_check (c : Bool) : Ensures (check c) fun _ => c = true := fun _ _ _ h => (check_some.mp h).1

theorem ensures_ofOption (o : Option α) : Ensures (ofOption o) fun a => o = some a := fun _ _ _ h => (ofOption_some.mp h).1

/-- What a round keeps, the loop keeps. -/
theorem Ensures.loop {P : σ → Prop} {f : σ → Reader σ} (step : ∀ x, P x → Ensures (f x) P) (n : Nat) {x : σ} (hx : P x) :
    Ensures (Wire.loop f n x) P := by
  induction n generalizing x with
  | zero => exact Ensures.pure hx
  | succ n ih => exact (step x hx).bind fun y hy => ih hy

theorem Ensures.times (hr : Ensures r P) (n : Nat) : Ensures (Wire.times r n) fun l => l.length = n ∧ ∀ a ∈ l, P a := by
  induction n with
  | zero => exact Ensures.pure ⟨rfl, forall_mem_nil P⟩
  | succ n ih =>
    refine hr.bind fun a ha => ih.bind fun l hl => Ensures.pure ⟨?_, forall_mem_cons.mpr ⟨ha, hl.2⟩⟩
    rw [length_cons, hl.1]

theorem length_times (h : times r n s = some (l, s')) : l.length = n :=
  ((show Ensures r fun _ => True from fun _ _ _ _ => trivial).times n s l s' h).1

end SELinux.Lib.Wire
