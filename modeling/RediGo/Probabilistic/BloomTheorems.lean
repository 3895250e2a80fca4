/-
RediGo.Probabilistic.BloomTheorems — a Bloom filter holds the probes of
what was added, and nothing else.

`Shaped` is what `NewBloomFilter` makes and no insertion changes: the bits
are exactly those of the words (`newBloomFilter_shaped`). In such a filter
every probe has its word, so no index is out of range. One iteration of the
insertion loop adds one position to the set of bits (`setProbe_eq`); the
loop adds the probes of a hash pair, and a run those of every insertion
(`run_eq`).
-/
import RediGo.Lib.BitArray
import RediGo.Probabilistic.Bloom

namespace RediGo.Probabilistic.Bloom

open RediGo.Go RediGo.Lib

/-- The position of probe `i` of a hash pair. -/
def position (b : Bloom) (h : HashValue) (i : Nat) : Nat :=
  (h.a + h.b * UInt64.ofNat i).toNat % b.bits.toNat

/-- `p` is one of the probe positions of a hash pair. -/
def IsProbe (b : Bloom) (h : HashValue) (p : Nat) : Prop := ∃ i < b.rounds, p = b.position h i

structure Shaped (b : Bloom) : Prop where
  bits_eq : b.bits.toNat = 64 * b.words.toNat
  length_eq : b.bf.length = b.words.toNat

theorem roundUp_mod (bits : UInt64) : (roundUp bits).toNat % 64 = 0 := by
  unfold roundUp
  split
  next =>
    rw [UInt64.toNat_mul]
    show (_ * 64) % 2 ^ 64 % 64 = 0
    omega
  next hmod => exact congrArg UInt64.toNat (not_not.mp hmod)

theorem roundUp_eq (bits : UInt64) : (roundUp bits).toNat = 64 * (roundUp bits / 64).toNat := by
  have hmod := roundUp_mod bits
  have hsixtyFour : (64 : UInt64).toNat = 64 := rfl
  rw [UInt64.toNat_div, hsixtyFour]
  omega

theorem eq_replicate_of_makeWords {n : UInt64} {ws : List UInt64} (h : makeWords n = .ok ws) :
    ws = List.replicate n.toNat 0 := by
  unfold makeWords at h
  split at h
  next => exact (Except.ok.inj h).symm
  next => cases h

theorem shaped_of_ofBits {impl : FloatImpl} {entries bits : UInt64}
    {errorRate bitPerEntry : Float64} {b : Bloom} (hbits : bits.toNat = 64 * (bits / 64).toNat)
    (h : ofBits impl entries errorRate bitPerEntry bits = .ok b) :
    b.Shaped ∧ ∀ w ∈ b.bf, w = 0 := by
  obtain ⟨ws, hmake, h⟩ := bind_eq_ok h
  obtain rfl := Except.ok.inj h
  rw [eq_replicate_of_makeWords hmake]
  exact ⟨⟨hbits, List.length_replicate⟩, fun w hw => List.eq_of_mem_replicate hw⟩

/-- What `NewBloomFilter` returns is empty and has the bits of its words. -/
theorem newBloomFilter_shaped {impl : FloatImpl} {entries : UInt64} {errorRate : Float64}
    {b : Bloom} (h : newBloomFilter impl entries errorRate = .ok b) :
    b.Shaped ∧ ∀ w ∈ b.bf, w = 0 :=
  shaped_of_ofBits (roundUp_eq _) h

section Filter

variable {b : Bloom} {bf : List UInt64}

theorem Shaped.position_lt (h : b.Shaped) (hwords : 1 ≤ b.words.toNat) (hv : HashValue) (i : Nat) :
    b.position hv i < 64 * b.words.toNat := by
  rw [position, h.bits_eq]
  exact Nat.mod_lt _ (by omega)

/-- The word index, the bit in the word, and the position they are of. -/
theorem Shaped.probe_eq (h : b.Shaped) (hwords : 1 ≤ b.words.toNat) (hv : HashValue) (i : Nat) :
    ∃ hash, b.probe hv i = .ok hash ∧ (hash >>> 6).toNat = b.position hv i / 64 ∧
      (hash &&& 0x3F).toNat = b.position hv i % 64 := by
  have hne : b.bits ≠ 0 := by
    intro hzero
    have hbits := h.bits_eq
    rw [hzero] at hbits
    simp at hbits
    omega
  have hpos : ((hv.a + hv.b * UInt64.ofNat i) % b.bits).toNat = b.position hv i :=
    UInt64.toNat_mod ..
  refine ⟨(hv.a + hv.b * UInt64.ofNat i) % b.bits, by rw [probe, modulo, if_neg hne], ?_, ?_⟩
  · rw [toNat_shiftRight_six, hpos]
  · rw [toNat_and_mask, hpos]

theorem index_eq_getD {ws : List UInt64} {i : Nat} (h : i < ws.length) :
    index ws i = .ok (ws.getD i 0) := by
  simp [index, h]

/-! ## Insertion -/

/-- One iteration adds one position. -/
theorem Shaped.setProbe_eq (h : b.Shaped) (hwords : 1 ≤ b.words.toNat) (hv : HashValue) (i : Nat)
    (hlen : bf.length = b.words.toNat) :
    ∃ bf', b.setProbe hv bf i = .ok bf' ∧ bf'.length = b.words.toNat ∧
      ∀ q, bitAt bf' q = (bitAt bf q || decide (q = b.position hv i)) := by
  obtain ⟨hash, hprobe, hword, hbit⟩ := h.probe_eq hwords hv i
  have hlt := h.position_lt hwords hv i
  have hin : b.position hv i / 64 < bf.length := by omega
  let bf' := bf.set (b.position hv i / 64)
    (bf.getD (b.position hv i / 64) 0 ||| (1 <<< (hash &&& 0x3F)))
  refine ⟨bf', ?_, by rw [List.length_set, hlen], bitAt_set_or hin hbit⟩
  unfold setProbe
  rw [hprobe]
  show (index bf (hash >>> 6).toNat >>= _) = _
  rw [hword, index_eq_getD hin]
  show setAt _ _ _ = _
  rw [setAt, if_pos hin]

theorem Shaped.setProbes_eq (h : b.Shaped) (hwords : 1 ≤ b.words.toNat) (hv : HashValue) :
    ∃ bf', b.setProbes hv = .ok { b with bf := bf' } ∧ bf'.length = b.words.toNat ∧
      ∀ q, bitAt bf' q = true ↔ bitAt b.bf q = true ∨ b.IsProbe hv q := by
  let I : Nat → List UInt64 → Prop := fun k bf =>
    bf.length = b.words.toNat ∧
      ∀ q, bitAt bf q = true ↔ bitAt b.bf q = true ∨ ∃ i < k, q = b.position hv i
  have hbody : ∀ i bf, 0 ≤ i → i < 0 + b.rounds → I i bf →
      ∃ bf', b.setProbe hv bf i = .ok bf' ∧ I (i + 1) bf' := by
    intro i bf _ _ ⟨hlen, hbits⟩
    obtain ⟨bf', hset, hlen', hbits'⟩ := h.setProbe_eq hwords hv i hlen
    refine ⟨bf', hset, hlen', fun q => ?_⟩
    rw [hbits', Bool.or_eq_true, hbits, decide_eq_true_iff, or_assoc]
    simp only [Nat.lt_succ_iff_lt_or_eq, or_and_right, exists_or, exists_eq_left]
  have hinit : I 0 b.bf := ⟨h.length_eq, fun q => by simp⟩
  obtain ⟨bf', hrun, hlen', hbits'⟩ := forRange_spec b.rounds 0 hbody hinit
  rw [Nat.zero_add] at hbits'
  refine ⟨bf', ?_, hlen', hbits'⟩
  unfold setProbes
  rw [hrun]
  rfl

theorem step_eq (calcHash : Bytes → HashValue) (b : Bloom) (ins : Insertion) :
    b.step calcHash ins = b.setProbes (ins.hash calcHash) := by
  cases ins <;> rfl

/-- A run of insertions adds the probes of each of them. -/
theorem Shaped.run_eq (h : b.Shaped) (hwords : 1 ≤ b.words.toNat) (calcHash : Bytes → HashValue)
    (inserted : List Insertion) :
    ∃ bf', run calcHash inserted b = .ok { b with bf := bf' } ∧ bf'.length = b.words.toNat ∧
      ∀ q, bitAt bf' q = true ↔
        bitAt b.bf q = true ∨ ∃ ins ∈ inserted, b.IsProbe (ins.hash calcHash) q := by
  induction inserted generalizing b with
  | nil => exact ⟨b.bf, rfl, h.length_eq, fun q => by simp⟩
  | cons ins more ih =>
    obtain ⟨bf₁, hstep, hlen₁, hbits₁⟩ := h.setProbes_eq hwords (ins.hash calcHash)
    have h₁ : ({ b with bf := bf₁ } : Bloom).Shaped := ⟨h.bits_eq, hlen₁⟩
    obtain ⟨bf₂, hrun, hlen₂, hbits₂⟩ := ih h₁ hwords
    refine ⟨bf₂, ?_, hlen₂, fun q => ?_⟩
    · unfold run
      rw [step_eq, hstep]
      exact hrun
    · rw [hbits₂ q, hbits₁ q]
      simp only [List.mem_cons, exists_eq_or_imp, or_assoc]
      rfl

/-! ## Membership -/

/-- The testing loop looks for the bits of the probes that are left. -/
theorem Shaped.testProbes_eq (h : b.Shaped) (hwords : 1 ≤ b.words.toNat) (hv : HashValue)
    (n i : Nat) :
    ∃ r, b.testProbes hv n i = .ok r ∧
      (r = true ↔ ∀ k, i ≤ k → k < i + n → bitAt b.bf (b.position hv k) = true) := by
  induction n generalizing i with
  | zero => exact ⟨true, rfl, by simp; omega⟩
  | succ n ih =>
    obtain ⟨hash, hprobe, hword, hbit⟩ := h.probe_eq hwords hv i
    have hlt := h.position_lt hwords hv i
    have hin : b.position hv i / 64 < b.bf.length := by
      rw [h.length_eq]
      omega
    have htest : b.bf.getD (b.position hv i / 64) 0 &&& (1 <<< (hash &&& 0x3F)) = 0 ↔
        bitAt b.bf (b.position hv i) = false := by
      rw [and_bit_eq_zero_iff (by omega), hbit]
      rfl
    have heq : b.testProbes hv (n + 1) i =
        if bitAt b.bf (b.position hv i) = false then .ok false
        else b.testProbes hv n (i + 1) := by
      show (b.probe hv i >>= _) = _
      rw [hprobe]
      show (index b.bf (hash >>> 6).toNat >>= _) = _
      rw [hword, index_eq_getD hin]
      show (if _ then _ else _) = _
      simp only [htest]
    rw [heq]
    by_cases hset : bitAt b.bf (b.position hv i) = false
    · rw [if_pos hset]
      refine ⟨false, rfl, ?_⟩
      simp only [Bool.false_eq_true, false_iff, not_forall]
      exact ⟨i, Nat.le_refl i, by omega, by simp [hset]⟩
    · rw [if_neg hset]
      obtain ⟨r, hr, hall⟩ := ih (i + 1)
      refine ⟨r, hr, hall.trans ⟨fun hrest k hk hkn => ?_, fun hrest k hk hkn => ?_⟩⟩
      · rcases Nat.eq_or_lt_of_le hk with rfl | hlt
        · exact Bool.eq_true_of_not_eq_false hset
        · exact hrest k hlt (by omega)
      · exact hrest k (by omega) (by omega)

theorem Shaped.exist_eq (h : b.Shaped) (hwords : 1 ≤ b.words.toNat)
    (calcHash : Bytes → HashValue) (x : Bytes) :
    ∃ r, b.exist calcHash x = .ok r ∧
      (r = true ↔ ∀ p, b.IsProbe (calcHash x) p → bitAt b.bf p = true) := by
  obtain ⟨r, hr, hall⟩ := h.testProbes_eq hwords (calcHash x) b.rounds 0
  refine ⟨r, hr, hall.trans ?_⟩
  simp only [Nat.zero_le, Nat.zero_add, true_imp_iff, IsProbe, forall_exists_index, and_imp]
  exact ⟨fun hbits p i hi hp => hp ▸ hbits i hi, fun hbits i hi => hbits _ i hi rfl⟩

theorem bitAt_eq_false_of_zero {ws : List UInt64} (h : ∀ w ∈ ws, w = 0) (p : Nat) :
    bitAt ws p = false := by
  have hword : ws.getD (p / 64) 0 = 0 := by
    rw [List.getD_eq_getElem?_getD]
    cases hget : ws[p / 64]? with
    | none => rfl
    | some w => exact h w (List.mem_of_getElem? hget)
  rw [bitAt, hword]
  exact Nat.zero_testBit _

end Filter

/-- After any insertions into an empty filter, on either path, a bit is set
if and only if it is a probe of an insertion. `Exist` answers for exactly
the entries all of whose probes are probes of insertions, so for every
entry that was added; the paths through a hash pair do the same. -/
theorem run_holds_probes (calcHash : Bytes → HashValue) (b : Bloom) (hwords : 1 ≤ b.words.toNat)
    (hbits : b.bits.toNat = 64 * b.words.toNat) (hlength : b.bf.length = b.words.toNat)
    (hempty : ∀ w ∈ b.bf, w = 0) (inserted : List Insertion) :
    ∃ b', run calcHash inserted b = .ok b' ∧
      (∀ p < b.bits.toNat, bitAt b'.bf p = true ↔
        ∃ ins ∈ inserted, b.IsProbe (ins.hash calcHash) p) ∧
      (∀ x, ∃ r, b'.exist calcHash x = .ok r ∧
        (r = true ↔ ∀ p, b.IsProbe (calcHash x) p →
          ∃ ins ∈ inserted, b.IsProbe (ins.hash calcHash) p) ∧
        (∀ ins ∈ inserted, ins.hash calcHash = calcHash x → r = true)) ∧
      (∀ x, b'.existHash (calcHash x) = b'.exist calcHash x) ∧
      ∀ x, b'.addHash (calcHash x) = b'.add calcHash x := by
  have h : b.Shaped := ⟨hbits, hlength⟩
  obtain ⟨bf', hrun, hlen', hset⟩ := h.run_eq hwords calcHash inserted
  have hset' : ∀ p, bitAt bf' p = true ↔
      ∃ ins ∈ inserted, b.IsProbe (ins.hash calcHash) p := by
    intro p
    rw [hset p, bitAt_eq_false_of_zero hempty p]
    simp
  have h' : ({ b with bf := bf' } : Bloom).Shaped := ⟨hbits, hlen'⟩
  refine ⟨{ b with bf := bf' }, hrun, fun p _ => hset' p, ?_, fun _ => rfl, fun _ => rfl⟩
  intro x
  obtain ⟨r, hexist, hr⟩ := h'.exist_eq hwords calcHash x
  have hiff : r = true ↔ ∀ p, b.IsProbe (calcHash x) p →
      ∃ ins ∈ inserted, b.IsProbe (ins.hash calcHash) p :=
    hr.trans (forall_congr' fun p => imp_congr_right fun _ => hset' p)
  refine ⟨r, hexist, hiff, fun ins hins hhash => hiff.mpr fun p hp => ?_⟩
  exact ⟨ins, hins, by rwa [hhash]⟩

/-- One word, three probes: an entry, and a hash pair whose probes wrap
around. -/
theorem run_holds_probes_oneWord :
    let calcHash : Bytes → HashValue := fun x => ⟨UInt64.ofNat x.length, 5⟩
    let b : Bloom := ⟨3, 10, .one, .one, [0], 64, 1⟩
    ∃ b', run calcHash [.add [7], .addHash ⟨MaxUint64, MaxUint64⟩] b = .ok b' ∧
      (∃ r, b'.exist calcHash [7] = .ok r ∧
        (∀ ins ∈ [Insertion.add [7], .addHash ⟨MaxUint64, MaxUint64⟩],
          ins.hash calcHash = calcHash [7] → r = true)) := by
  intro calcHash b
  obtain ⟨b', hrun, _, hexist, _⟩ := run_holds_probes calcHash b (by decide) (by decide)
    (by decide) (List.forall_mem_singleton.2 rfl) [.add [7], .addHash ⟨MaxUint64, MaxUint64⟩]
  obtain ⟨r, hr, _, hadded⟩ := hexist [7]
  exact ⟨b', hrun, r, hr, hadded⟩

end RediGo.Probabilistic.Bloom
