import NexusCore.Probe.Model

/-!
# The bucket of a latency

The unrolled stages of `log2Bucket` compute the binary logarithm: each stage moves `k` bits
of the value into the result when they are there, so the sum of the result and the logarithm of
what is left stays the same (`log2Stage_spec`).  The bucket of a latency is therefore the place
of its highest bit, `0` for the value `0`, and grows with it (`log2Bucket_mono`); the clamp at
the end is never needed (`log2Bucket_eq_raw`).
-/

namespace NexusCore.Probe

theorem toNat_one_shiftLeft {k : UInt64} (hk : k.toNat < 64) :
    ((1 : UInt64) <<< k).toNat = 2 ^ k.toNat := by
  rw [UInt64.toNat_shiftLeft, Nat.mod_eq_of_lt hk, show (1 : UInt64).toNat = 1 from rfl,
    Nat.one_shiftLeft, Nat.mod_eq_of_lt (Nat.pow_lt_pow_right (by decide) hk)]

theorem toNat_shiftRight_div {v k : UInt64} (hk : k.toNat < 64) :
    (v >>> k).toNat = v.toNat / 2 ^ k.toNat := by
  rw [UInt64.toNat_shiftRight, Nat.mod_eq_of_lt hk, Nat.shiftRight_eq_div_pow]

/-- The result so far and the value that is left. -/
structure LogState (rv : UInt32 × UInt64) (width total : ℕ) : Prop where
  pos : 0 < rv.2.toNat
  lt : rv.2.toNat < 2 ^ width
  sum : rv.1.toNat + Nat.log 2 rv.2.toNat = total

/-- **One stage** halves the width and keeps the sum of the two logarithms. -/
theorem log2Stage_spec {rv : UInt32 × UInt64} {k : UInt64} {total : ℕ}
    (h : LogState rv (k.toNat + k.toNat) total) (hk : k.toNat < 64) (htotal : total < 64) :
    LogState (log2Stage k rv) k.toNat total := by
  have hshift := toNat_one_shiftLeft hk
  by_cases hle : (1 : UInt64) <<< k ≤ rv.2
  · have hstage : log2Stage k rv = (rv.1 + k.toUInt32, rv.2 >>> k) := if_pos hle
    have hpow : 2 ^ k.toNat ≤ rv.2.toNat := by
      rw [← hshift]
      exact UInt64.le_iff_toNat_le.mp hle
    have hlog : k.toNat ≤ Nat.log 2 rv.2.toNat :=
      Nat.le_log_of_pow_le (by decide) hpow
    have hsum := h.sum
    have hk32 : k.toUInt32.toNat = k.toNat := by
      rw [UInt64.toNat_toUInt32, Nat.mod_eq_of_lt (by omega)]
    rw [hstage]
    refine ⟨?_, ?_, ?_⟩
    · show 0 < (rv.2 >>> k).toNat
      rw [toNat_shiftRight_div hk]
      exact Nat.div_pos hpow (Nat.two_pow_pos _)
    · show (rv.2 >>> k).toNat < 2 ^ k.toNat
      rw [toNat_shiftRight_div hk, Nat.div_lt_iff_lt_mul (Nat.two_pow_pos _), ← Nat.pow_add]
      exact h.lt
    · show (rv.1 + k.toUInt32).toNat + Nat.log 2 (rv.2 >>> k).toNat = total
      rw [UInt32.toNat_add, hk32, Nat.mod_eq_of_lt (by omega), toNat_shiftRight_div hk,
        Nat.log_div_base_pow]
      omega
  · have hstage : log2Stage k rv = rv := if_neg hle
    rw [hstage]
    refine ⟨h.pos, ?_, h.sum⟩
    rw [← hshift]
    exact Nat.not_le.mp fun hc => hle (UInt64.le_iff_toNat_le.mpr hc)

/-- The last stage, on the two bits that are left. -/
theorem log2Last_spec {rv : UInt32 × UInt64} {total : ℕ} (h : LogState rv 2 total)
    (htotal : total < 64) :
    (if (1 : UInt64) <<< 1 ≤ rv.2 then rv.1 + 1 else rv.1).toNat = total := by
  have hpos := h.pos
  have hlt := h.lt
  have hsum := h.sum
  have htwo : ((1 : UInt64) <<< 1).toNat = 2 := by decide
  by_cases hle : (1 : UInt64) <<< 1 ≤ rv.2
  · have hge : 2 ≤ rv.2.toNat := by
      rw [← htwo]
      exact UInt64.le_iff_toNat_le.mp hle
    have hlog : Nat.log 2 rv.2.toNat = 1 := Nat.log_eq_of_pow_le_of_lt_pow hge hlt
    rw [if_pos hle, UInt32.toNat_add, show (1 : UInt32).toNat = 1 from rfl,
      Nat.mod_eq_of_lt (by omega)]
    omega
  · have hone : rv.2.toNat < 2 := by
      rw [← htwo]
      exact Nat.not_le.mp fun hc => hle (UInt64.le_iff_toNat_le.mpr hc)
    rw [if_neg hle, ← hsum, Nat.log_of_lt hone, Nat.add_zero]

/-- The result before it is clamped. -/
def log2Raw (v : UInt64) : UInt32 :=
  if v = 0 then 0 else
    let rv := log2Stage 2 (log2Stage 4 (log2Stage 8 (log2Stage 16 (log2Stage 32 (0, v)))))
    if (1 : UInt64) <<< 1 ≤ rv.2 then rv.1 + 1 else rv.1

theorem log2Bucket_eq_clamp (v : UInt64) :
    log2Bucket v = if log2Raw v < maxBuckets then log2Raw v else maxBuckets - 1 := by
  rw [log2Bucket, log2Raw]
  by_cases hv : v = 0
  · rw [if_pos hv, if_pos hv]
    rfl
  · rw [if_neg hv, if_neg hv]

/-- The stages leave nothing of the value but its logarithm. -/
theorem log2Raw_toNat (v : UInt64) : (log2Raw v).toNat = Nat.log 2 v.toNat := by
  by_cases hv : v = 0
  · subst hv
    rfl
  have hpos : 0 < v.toNat := Nat.pos_of_ne_zero fun hc => hv (UInt64.toNat_inj.mp hc)
  have htotal : Nat.log 2 v.toNat < 64 := Nat.log_lt_of_lt_pow (by omega) v.toNat_lt
  have h₀ : LogState (0, v) ((32 : UInt64).toNat + (32 : UInt64).toNat) (Nat.log 2 v.toNat) :=
    ⟨hpos, v.toNat_lt, Nat.zero_add _⟩
  have h₁ := log2Stage_spec h₀ (by decide) htotal
  have h₂ : LogState _ (16 : UInt64).toNat _ := log2Stage_spec h₁ (by decide) htotal
  have h₃ : LogState _ (8 : UInt64).toNat _ := log2Stage_spec h₂ (by decide) htotal
  have h₄ : LogState _ (4 : UInt64).toNat _ := log2Stage_spec h₃ (by decide) htotal
  have h₅ : LogState _ (2 : UInt64).toNat _ := log2Stage_spec h₄ (by decide) htotal
  rw [log2Raw, if_neg hv]
  exact log2Last_spec h₅ htotal

theorem log2Raw_lt (v : UInt64) : log2Raw v < maxBuckets := by
  rw [UInt32.lt_iff_toNat_lt, log2Raw_toNat]
  by_cases hv : v.toNat = 0
  · rw [hv]
    decide
  · exact Nat.log_lt_of_lt_pow hv v.toNat_lt

/-- **The clamp never changes the result.** -/
theorem log2Bucket_eq_raw (v : UInt64) : log2Bucket v = log2Raw v := by
  rw [log2Bucket_eq_clamp, if_pos (log2Raw_lt v)]

/-- **The bucket is the binary logarithm.** -/
theorem log2Bucket_toNat (v : UInt64) : (log2Bucket v).toNat = Nat.log 2 v.toNat := by
  rw [log2Bucket_eq_raw, log2Raw_toNat]

/-- A larger latency is in no smaller bucket. -/
theorem log2Bucket_mono {v w : UInt64} (h : v.toNat ≤ w.toNat) :
    (log2Bucket v).toNat ≤ (log2Bucket w).toNat := by
  rw [log2Bucket_toNat, log2Bucket_toNat]
  exact Nat.log_mono_right h

/-- The values of a bucket reach from one power of two to the next. -/
theorem log2Bucket_eq_of_between {v : UInt64} {slot : UInt32} (hlo : 2 ^ slot.toNat ≤ v.toNat)
    (hhi : v.toNat < 2 ^ (slot.toNat + 1)) : log2Bucket v = slot := by
  apply UInt32.toNat_inj.mp
  rw [log2Bucket_toNat]
  exact Nat.log_eq_of_pow_le_of_lt_pow hlo hhi

/-- **`log2_bucket` is the exact binary logarithm** on all 64-bit values, and every bucket
exists. -/
theorem log2Bucket_exact :
    (∀ v : UInt64, 0 < v →
        2 ^ (log2Bucket v).toNat ≤ v.toNat ∧ v.toNat < 2 ^ ((log2Bucket v).toNat + 1)
          ∧ (log2Bucket v).toNat < 64)
      ∧ log2Bucket 0 = 0
      ∧ (∀ v w : UInt64, v ≤ w → log2Bucket v ≤ log2Bucket w)
      ∧ (∀ v : UInt64, log2Bucket v = log2Raw v)
      ∧ ∀ (m : Maps) (name : HistName) (cpu : ℕ) (latencyNs : UInt64),
          log2Bucket latencyNs < maxBuckets
            ∧ histUpdate m name cpu latencyNs
              = { m with hist := bump m.hist name cpu (log2Bucket latencyNs) } := by
  refine ⟨?_, rfl, ?_, log2Bucket_eq_raw, ?_⟩
  · intro v hv
    have hne : v.toNat ≠ 0 := Nat.pos_iff_ne_zero.mp (UInt64.lt_iff_toNat_lt.mp hv)
    refine ⟨?_, ?_, UInt32.lt_iff_toNat_lt.mp (log2Bucket_lt v)⟩
    · rw [log2Bucket_toNat]
      exact Nat.pow_log_le_self 2 hne
    · rw [log2Bucket_toNat]
      exact Nat.lt_pow_succ_log_self (by decide) v.toNat
  · intro v w h
    exact UInt32.le_iff_toNat_le.mpr (log2Bucket_mono (UInt64.le_iff_toNat_le.mp h))
  · exact fun m name cpu latencyNs => ⟨log2Bucket_lt latencyNs, histUpdate_eq m name cpu latencyNs⟩

theorem log2Bucket_exact_small :
    2 ^ (log2Bucket 1500).toNat ≤ 1500 ∧ log2Bucket 1500 ≤ log2Bucket 4096 :=
  ⟨(log2Bucket_exact.1 1500 (by decide)).1, log2Bucket_exact.2.2.1 1500 4096 (by decide)⟩

end NexusCore.Probe
