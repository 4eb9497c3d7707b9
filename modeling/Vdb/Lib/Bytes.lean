import Mathlib.Tactic.Ring

/-!
# Byte strings

Fixed-width little-endian numbers, and readers that consume a byte string from the front or fail.
`Reads r bs a` says that `r` takes exactly `bs` off the front of any input that starts with it, and
gives `a`; a format is read back field by field with `Reads.bind` and `reads_many`.

* `getNat_putNat` : a number written in `w` bytes is read back modulo `256 ^ w`.
* `putNat_getNat` : `w` bytes are what writing their number gives.
* `Reader.Local.cut` : what takes exactly `bs`, or throws, throws on every shorter part of `bs`.
-/

namespace Vdb

abbrev Bytes := List UInt8

/-- The `w` little-endian bytes of `n`, without what does not fit. -/
def putNat : ℕ → ℕ → Bytes
  | 0, _ => []
  | w + 1, n => UInt8.ofNat n :: putNat w (n / 256)

/-- The number with these little-endian bytes. -/
def getNat : Bytes → ℕ
  | [] => 0
  | b :: bs => b.toNat + 256 * getNat bs

@[simp] theorem length_putNat (w n : ℕ) : (putNat w n).length = w := by
  induction w generalizing n with
  | zero => rfl
  | succ w ih => rw [putNat, List.length_cons, ih]

theorem getNat_putNat (w n : ℕ) : getNat (putNat w n) = n % 256 ^ w := by
  induction w generalizing n with
  | zero => rw [putNat, getNat, pow_zero, Nat.mod_one]
  | succ w ih =>
    have hb : (UInt8.ofNat n).toNat = n % 256 := UInt8.toNat_ofNat'
    rw [putNat, getNat, ih, hb, pow_succ', Nat.mod_mul]

theorem getNat_putNat_of_lt {w n : ℕ} (h : n < 256 ^ w) : getNat (putNat w n) = n := by
  rw [getNat_putNat, Nat.mod_eq_of_lt h]

theorem getNat_lt (bs : Bytes) : getNat bs < 256 ^ bs.length := by
  induction bs with
  | nil => exact Nat.one_pos
  | cons b bs ih =>
    have hb : b.toNat < 256 := b.toNat_lt
    rw [getNat, List.length_cons, pow_succ]
    omega

theorem putNat_getNat (bs : Bytes) : putNat bs.length (getNat bs) = bs := by
  induction bs with
  | nil => rfl
  | cons b bs ih =>
    have hb : b.toNat < 256 := b.toNat_lt
    have hlow : UInt8.ofNat (b.toNat + 256 * getNat bs) = b := by
      apply UInt8.toNat_inj.1
      rw [UInt8.toNat_ofNat', Nat.add_mul_mod_self_left, Nat.mod_eq_of_lt hb]
    have hhigh : (b.toNat + 256 * getNat bs) / 256 = getNat bs := by omega
    rw [getNat, List.length_cons, putNat, hlow, hhigh, ih]

theorem putNat_getNat_of_length {w : ℕ} {bs : Bytes} (h : bs.length = w) :
    putNat w (getNat bs) = bs := by
  rw [← h, putNat_getNat]

/-- A reader takes bytes off the front, or fails with an error. -/
abbrev Reader (ε α : Type) := StateT Bytes (Except ε) α

namespace Reader

variable {ε α β : Type}

/-- The next `n` bytes, or the error `e` if there are fewer. -/
def take (e : ε) (n : ℕ) : Reader ε Bytes := fun bs =>
  if bs.length < n then .error e else .ok (bs.take n, bs.drop n)

/-- A number of `w` bytes. -/
def nat (e : ε) (w : ℕ) : Reader ε ℕ := getNat <$> take e w

/-- Read `n` times. -/
def many (r : Reader ε α) : ℕ → Reader ε (List α)
  | 0 => pure []
  | n + 1 => do
    let a ← r
    let as ← many r n
    pure (a :: as)

/-- The reader takes exactly `bs` off any input that starts with it, and gives `a`. -/
def Reads (r : Reader ε α) (bs : Bytes) (a : α) : Prop :=
  ∀ rest, r (bs ++ rest) = .ok (a, rest)

theorem reads_pure (a : α) : Reads (pure a : Reader ε α) [] a := fun _ => rfl

theorem Reads.bind {r : Reader ε α} {f : α → Reader ε β} {bs cs : Bytes} {a : α} {b : β}
    (hr : r.Reads bs a) (hf : (f a).Reads cs b) : (r >>= f).Reads (bs ++ cs) b := by
  intro rest
  have h := hr (cs ++ rest)
  rw [← List.append_assoc] at h
  change (r (bs ++ cs ++ rest) >>= fun p => f p.1 p.2) = _
  rw [h]
  exact hf rest

/-- A sequence goes on behind what its first part reads. -/
theorem Reads.bind_apply {r : Reader ε α} {bs : Bytes} {a : α} (hr : r.Reads bs a)
    (f : α → Reader ε β) (rest : Bytes) : (r >>= f) (bs ++ rest) = f a rest := by
  change (r (bs ++ rest) >>= fun p => f p.1 p.2) = _
  rw [hr rest]
  rfl

theorem Reads.map {r : Reader ε α} {bs : Bytes} {a : α} (hr : r.Reads bs a) (f : α → β) :
    (f <$> r).Reads bs (f a) := by
  intro rest
  change (r (bs ++ rest) >>= fun p => Except.ok (f p.1, p.2)) = _
  rw [hr rest]
  rfl

/-- The last field of a format. -/
theorem Reads.bind_pure {r : Reader ε α} {bs : Bytes} {a : α} (hr : r.Reads bs a) (f : α → β) :
    (r >>= fun a => pure (f a)).Reads bs (f a) := by
  intro rest
  change (r (bs ++ rest) >>= fun p => Except.ok (f p.1, p.2)) = _
  rw [hr rest]
  rfl

theorem reads_take (e : ε) {n : ℕ} {bs : Bytes} (h : bs.length = n) : (take e n).Reads bs bs := by
  subst h
  intro rest
  rw [take, if_neg (by simp), List.take_left, List.drop_left]

theorem reads_nat (e : ε) {w n : ℕ} (h : n < 256 ^ w) : (nat e w).Reads (putNat w n) n := by
  have ht := (reads_take e (length_putNat w n)).map getNat
  rwa [getNat_putNat_of_lt h] at ht

/-- A number is read back without what does not fit. -/
theorem reads_nat_mod (e : ε) (w n : ℕ) : (nat e w).Reads (putNat w n) (n % 256 ^ w) := by
  have ht := (reads_take e (length_putNat w n)).map getNat
  rwa [getNat_putNat] at ht

/-- The reader throws on any input that starts with `bs`. -/
def Fails (r : Reader ε α) (bs : Bytes) : Prop := ∀ rest, ∃ e, r (bs ++ rest) = .error e

theorem fails_throw (e : ε) (bs : Bytes) : Fails (throw e : Reader ε α) bs := fun _ => ⟨e, rfl⟩

theorem Reads.bind_fails {r : Reader ε α} {f : α → Reader ε β} {bs cs : Bytes} {a : α}
    (hr : r.Reads bs a) (hf : (f a).Fails cs) : (r >>= f).Fails (bs ++ cs) := by
  intro rest
  have h := hr (cs ++ rest)
  rw [← List.append_assoc] at h
  change ∃ e, (r (bs ++ cs ++ rest) >>= fun p => f p.1 p.2) = .error e
  rw [h]
  exact hf rest

/-- A sequence whose first part throws. -/
theorem Fails.bind {r : Reader ε α} {bs : Bytes} (hr : r.Fails bs) (f : α → Reader ε β) :
    (r >>= f).Fails bs := by
  intro rest
  obtain ⟨e, he⟩ := hr rest
  change ∃ e, (r (bs ++ rest) >>= fun p => f p.1 p.2) = .error e
  rw [he]
  exact ⟨e, rfl⟩

/-- A list is read back when each of its elements is. -/
theorem reads_many {r : Reader ε α} {put : β → Bytes} {got : β → α} {l : List β}
    (h : ∀ b ∈ l, r.Reads (put b) (got b)) :
    (many r l.length).Reads (l.flatMap put) (l.map got) := by
  induction l with
  | nil => exact reads_pure []
  | cons b l ih =>
    have hb := h b List.mem_cons_self
    have hl := ih fun c hc => h c (List.mem_cons_of_mem b hc)
    have hend := hl.bind (f := fun as => (pure (got b :: as) : Reader ε (List α)))
      (reads_pure (got b :: l.map got))
    rw [List.append_nil] at hend
    exact hb.bind (f := fun a => do
      let as ← many r l.length
      pure (a :: as)) hend

/-! ### What a reader has taken -/

/-- A sequence that succeeds has succeeded twice. -/
theorem bind_ok {r : Reader ε α} {f : α → Reader ε β} {bs rest : Bytes} {b : β}
    (h : (r >>= f) bs = .ok (b, rest)) :
    ∃ a mid, r bs = .ok (a, mid) ∧ f a mid = .ok (b, rest) := by
  change (r bs >>= fun p => f p.1 p.2) = _ at h
  cases hr : r bs with
  | error e =>
    rw [hr] at h
    cases h
  | ok p =>
    rw [hr] at h
    exact ⟨p.1, p.2, rfl, h⟩

/-- What every value that is read satisfies. -/
def Ensures (r : Reader ε α) (P : α → Prop) : Prop := ∀ bs a rest, r bs = .ok (a, rest) → P a

theorem Ensures.bind {r : Reader ε α} {f : α → Reader ε β} {Q : α → Prop} {P : β → Prop}
    (hr : r.Ensures Q) (hf : ∀ a, Q a → (f a).Ensures P) : (r >>= f).Ensures P := by
  intro bs b rest h
  obtain ⟨a, mid, ha, hb⟩ := bind_ok h
  exact hf a (hr bs a mid ha) mid b rest hb

theorem ensures_bind {r : Reader ε α} {f : α → Reader ε β} {P : β → Prop}
    (hf : ∀ a, (f a).Ensures P) : (r >>= f).Ensures P :=
  Ensures.bind (Q := fun _ => True) (fun _ _ _ _ => trivial) fun a _ => hf a

theorem ensures_throw (e : ε) (P : α → Prop) : (throw e : Reader ε α).Ensures P := by
  intro bs a rest h
  cases h

theorem ensures_pure {a : α} {P : α → Prop} (h : P a) : (pure a : Reader ε α).Ensures P := by
  intro bs b rest hb
  cases hb
  exact h

theorem map_ok {r : Reader ε α} {f : α → β} {bs rest : Bytes} {b : β}
    (h : (f <$> r) bs = .ok (b, rest)) : ∃ a, r bs = .ok (a, rest) ∧ f a = b := by
  change (r bs >>= fun p => Except.ok (f p.1, p.2)) = _ at h
  cases hr : r bs with
  | error e =>
    rw [hr] at h
    cases h
  | ok p =>
    rw [hr] at h
    cases h
    exact ⟨p.1, rfl, rfl⟩

theorem pure_ok {a b : α} {bs rest : Bytes} (h : (pure a : Reader ε α) bs = .ok (b, rest)) :
    a = b ∧ bs = rest := by
  cases h
  exact ⟨rfl, rfl⟩

theorem take_ok {e : ε} {n : ℕ} {bs s rest : Bytes} (h : take e n bs = .ok (s, rest)) :
    bs = s ++ rest ∧ s.length = n := by
  unfold take at h
  split_ifs at h with hn
  cases h
  exact ⟨(List.take_append_drop n bs).symm, List.length_take_of_le (not_lt.1 hn)⟩

theorem nat_ok {e : ε} {w n : ℕ} {bs rest : Bytes} (h : nat e w bs = .ok (n, rest)) :
    bs = putNat w n ++ rest ∧ n < 256 ^ w := by
  obtain ⟨s, hs, rfl⟩ := map_ok h
  obtain ⟨hbs, hlen⟩ := take_ok hs
  subst hlen
  exact ⟨(putNat_getNat s).symm ▸ hbs, getNat_lt s⟩

/-- What is read one by one is put one by one. -/
theorem many_ok {r : Reader ε α} {put : α → Bytes} {Q : α → Prop}
    (hr : ∀ {bs a rest}, r bs = .ok (a, rest) → bs = put a ++ rest ∧ Q a) {n : ℕ}
    {bs rest : Bytes} {as : List α} (h : many r n bs = .ok (as, rest)) :
    bs = as.flatMap put ++ rest ∧ as.length = n ∧ ∀ a ∈ as, Q a := by
  induction n generalizing bs as with
  | zero =>
    obtain ⟨rfl, rfl⟩ := pure_ok h
    exact ⟨rfl, rfl, by simp⟩
  | succ n ih =>
    obtain ⟨a, mid, ha, h⟩ := bind_ok h
    obtain ⟨as, rest', has, h⟩ := bind_ok h
    obtain ⟨rfl, rfl⟩ := pure_ok h
    obtain ⟨rfl, hQ⟩ := hr ha
    obtain ⟨rfl, rfl, hall⟩ := ih has
    refine ⟨by rw [List.flatMap_cons, List.append_assoc], rfl, fun b hb => ?_⟩
    rcases List.mem_cons.1 hb with rfl | hb
    · exact hQ
    · exact hall b hb

/-! ### Inputs that are cut short -/

/-- A reader that succeeds does not depend on what it leaves. -/
def Local (r : Reader ε α) : Prop :=
  ∀ bs a rest, r bs = .ok (a, rest) → ∀ more, r (bs ++ more) = .ok (a, rest ++ more)

theorem local_pure (a : α) : Local (pure a : Reader ε α) := by
  intro bs b rest h more
  obtain ⟨rfl, rfl⟩ := pure_ok h
  rfl

theorem local_throw (e : ε) : Local (throw e : Reader ε α) := nofun

theorem Local.bind {r : Reader ε α} {f : α → Reader ε β} (hr : r.Local) (hf : ∀ a, (f a).Local) :
    (r >>= f).Local := by
  intro bs b rest h more
  obtain ⟨a, mid, ha, hb⟩ := bind_ok h
  change (r (bs ++ more) >>= fun p => f p.1 p.2) = _
  rw [hr bs a mid ha more]
  exact hf a mid b rest hb more

theorem Local.map {r : Reader ε α} (hr : r.Local) (f : α → β) : (f <$> r).Local := by
  intro bs b rest h more
  obtain ⟨a, ha, rfl⟩ := map_ok h
  change (r (bs ++ more) >>= fun p => Except.ok (f p.1, p.2)) = _
  rw [hr bs a rest ha more]
  rfl

theorem Local.ite {r s : Reader ε α} (p : Prop) [Decidable p] (hr : r.Local) (hs : s.Local) :
    (if p then r else s).Local := by
  split_ifs
  · exact hr
  · exact hs

theorem local_take (e : ε) (n : ℕ) : (take e n).Local := by
  intro bs s rest h more
  obtain ⟨rfl, hlen⟩ := take_ok h
  rw [List.append_assoc]
  exact reads_take e hlen (rest ++ more)

theorem local_nat (e : ε) (w : ℕ) : (nat e w).Local := (local_take e w).map getNat

theorem Local.many {r : Reader ε α} (hr : r.Local) (n : ℕ) : (many r n).Local := by
  induction n with
  | zero => exact local_pure []
  | succ n ih => exact hr.bind fun a => ih.bind fun as => local_pure (a :: as)

/-- The reader throws on an input that starts with `bs`, or takes exactly `bs`. -/
def Spans (r : Reader ε α) (bs : Bytes) : Prop :=
  ∀ rest a left, r (bs ++ rest) = .ok (a, left) → left = rest

theorem Reads.spans {r : Reader ε α} {bs : Bytes} {a : α} (hr : r.Reads bs a) : r.Spans bs := by
  intro rest b left h
  rw [hr rest] at h
  cases h
  rfl

theorem Fails.spans {r : Reader ε α} {bs : Bytes} (hr : r.Fails bs) : r.Spans bs := by
  intro rest b left h
  obtain ⟨e, he⟩ := hr rest
  rw [he] at h
  cases h

theorem Reads.bind_spans {r : Reader ε α} {f : α → Reader ε β} {bs cs : Bytes} {a : α}
    (hr : r.Reads bs a) (hf : (f a).Spans cs) : (r >>= f).Spans (bs ++ cs) := by
  intro rest b left h
  rw [List.append_assoc, hr.bind_apply] at h
  exact hf rest b left h

/-- **An input that is cut short** is refused. -/
theorem Local.cut {r : Reader ε α} {bs cut : Bytes} (hr : r.Local) (hs : r.Spans bs)
    (hcut : cut <+: bs) (hne : cut ≠ bs) : ∃ e, r cut = .error e := by
  obtain ⟨lost, rfl⟩ := hcut
  cases h : r cut with
  | error e => exact ⟨e, rfl⟩
  | ok p =>
    -- what is read off the cut input is read off the whole one, which has nothing left over
    have hwhole := hr cut p.1 p.2 h lost
    rw [← List.append_nil (cut ++ lost)] at hwhole
    have hleft := hs [] p.1 _ hwhole
    rw [(List.append_eq_nil_iff.1 hleft).2, List.append_nil] at hne
    exact absurd rfl hne

end Reader

end Vdb
