import NvmeVirt.Zns.WritePointers

/-!
# What a write gives back

The flush loop of `__zns_write` releases a one-shot page whenever it touches the
last page of one, and what is left of the zone when it touches the last page of
the zone.  Summed over a write, the releases depend on the pages before and
after the write only.
-/

namespace NvmeVirt.Zns

open Function Ftl

/-! ## Complete groups of pages -/

/-- The pages in the complete one-shot pages among the first `pages` pages of a
zone; the last one-shot page of the zone may be short. -/
def flushedPgs (zonePgs oneshotPgs pages : ℕ) : ℕ :=
  if pages = zonePgs then zonePgs else pages / oneshotPgs * oneshotPgs

theorem flushedPgs_le {zonePgs oneshotPgs pages : ℕ} :
    flushedPgs zonePgs oneshotPgs pages ≤ pages := by
  unfold flushedPgs
  split
  · omega
  · exact Nat.div_mul_le_self _ _

section Group

variable {zonePgs oneshotPgs first count : ℕ}

/-- A step that ends a group adds that group. -/
theorem flushedPgs_add_of_last (hfirst : first < zonePgs)
    (hgroup : first % oneshotPgs + count ≤ oneshotPgs) (hcount : 0 < count)
    (hlast : first % oneshotPgs + count = oneshotPgs ∨
      first + count = zonePgs) :
    flushedPgs zonePgs oneshotPgs (first + count) =
      (if first + count = zonePgs ∧ 0 < zonePgs % oneshotPgs then
        zonePgs % oneshotPgs else oneshotPgs) +
      flushedPgs zonePgs oneshotPgs first := by
  have hpos : 0 < oneshotPgs := by omega
  have hsplit := Nat.div_add_mod first oneshotPgs
  have hbase : flushedPgs zonePgs oneshotPgs first =
      oneshotPgs * (first / oneshotPgs) := by
    rw [flushedPgs, if_neg hfirst.ne, Nat.mul_comm]
  rw [hbase]
  by_cases hfull : first % oneshotPgs + count = oneshotPgs
  · have hend : first + count = oneshotPgs * (first / oneshotPgs + 1) := by
      rw [Nat.mul_succ]
      omega
    have hmod : ¬ (first + count = zonePgs ∧ 0 < zonePgs % oneshotPgs) := by
      rintro ⟨hzone, hmod⟩
      rw [← hzone, hend, Nat.mul_mod_right] at hmod
      exact lt_irrefl _ hmod
    rw [if_neg hmod, flushedPgs]
    split
    · rw [Nat.mul_succ] at hend
      omega
    · rw [hend, Nat.mul_div_cancel_left _ hpos, Nat.mul_comm, Nat.mul_succ]
      omega
  · have hzone : first + count = zonePgs := hlast.resolve_left hfull
    have hrest : zonePgs % oneshotPgs = first % oneshotPgs + count := by
      have hend : first + count =
          first % oneshotPgs + count + oneshotPgs * (first / oneshotPgs) := by
        omega
      rw [← hzone, hend, Nat.add_mul_mod_self_left,
        Nat.mod_eq_of_lt (by omega)]
    rw [if_pos ⟨hzone, by omega⟩, flushedPgs, if_pos hzone, hrest]
    omega

/-- A step within a group adds nothing. -/
theorem flushedPgs_add_of_inside (hfirst : first < zonePgs)
    (hgroup : first % oneshotPgs + count < oneshotPgs)
    (hzone : first + count ≠ zonePgs) :
    flushedPgs zonePgs oneshotPgs (first + count) =
      flushedPgs zonePgs oneshotPgs first := by
  have hsplit := Nat.div_add_mod first oneshotPgs
  have hdiv : (first + count) / oneshotPgs = first / oneshotPgs := by
    have hend : first + count =
        first % oneshotPgs + count + oneshotPgs * (first / oneshotPgs) := by
      omega
    rw [hend, Nat.add_mul_div_left _ _ (by omega : 0 < oneshotPgs),
      Nat.div_eq_of_lt hgroup, Nat.zero_add]
  rw [flushedPgs, flushedPgs, if_neg hzone, if_neg hfirst.ne, hdiv]

end Group

/-! ## Page numbers of a zone -/

section Pages

variable {zp : ZnsParams} {zid : ℕ}

theorem pgsPerZone_pos (zp : ZnsParams) : 0 < zp.pgsPerZone := by
  have hpos := lbasPerZone_pos zp
  rw [lbasPerZone_eq] at hpos
  exact Nat.pos_of_mul_pos_right hpos

theorem lpnToPg_eq (hend : (zid + 1) * zp.lbasPerZone < 2 ^ 32) {page : ℕ}
    (hpage : page < zp.pgsPerZone) :
    lpnToPg zp (zid * zp.pgsPerZone + page) = page % zp.pgsPerOneshotpg := by
  have hpos := pgsPerZone_pos zp
  have hlt : zid * zp.pgsPerZone < 2 ^ 32 ∧ zid < 2 ^ 32 := by
    have := Nat.le_mul_of_pos_right zid hpos
    rw [lbasPerZone_eq, secsPerPg, ← Nat.mul_assoc, Nat.succ_mul] at hend
    omega
  have hzone : zp.lpnToZone (zid * zp.pgsPerZone + page) = zid := by
    rw [ZnsParams.lpnToZone, Nat.mul_comm, Nat.mul_add_div hpos,
      Nat.div_eq_of_lt hpage]
    exact Nat.mod_eq_of_lt hlt.2
  rw [lpnToPg, hzone, ZnsParams.zoneToSlpn, uint32, Nat.mod_eq_of_lt hlt.1,
    Nat.add_sub_cancel_left]

theorem zoneToElpn_eq (hend : (zid + 1) * zp.lbasPerZone < 2 ^ 32) :
    zp.zoneToElpn zid + 1 = (zid + 1) * zp.pgsPerZone := by
  have hpos := pgsPerZone_pos zp
  have hle := Nat.le_mul_of_pos_right (zid + 1) (lbasPerZone_pos zp)
  have hslba : zp.zoneToSlba (uint32 (zid + 1)) = (zid + 1) * zp.lbasPerZone := by
    rw [uint32, Nat.mod_eq_of_lt (by omega)]
    exact Nat.mod_eq_of_lt hend
  have hpages : 0 < (zid + 1) * zp.pgsPerZone := Nat.mul_pos (Nat.succ_pos _) hpos
  rw [ZnsParams.zoneToElpn, ZnsParams.zoneToElba, hslba]
  rw [lbasPerZone_eq, secsPerPg, ← Nat.mul_assoc] at hend ⊢
  omega

/-! ## The loop -/

/-- Bytes that a list of internal operations releases. -/
def releaseBytes (releases : List BufferRelease) : ℕ :=
  (releases.map BufferRelease.bytes).sum

@[simp]
theorem releaseBytes_nil : releaseBytes [] = 0 := rfl

theorem releaseBytes_singleton (release : BufferRelease) :
    releaseBytes [release] = release.bytes :=
  Nat.add_zero _

theorem releaseBytes_append (releases releases' : List BufferRelease) :
    releaseBytes (releases ++ releases') =
      releaseBytes releases + releaseBytes releases' := by
  simp [releaseBytes]

theorem unalignedSpace_eq (zp : ZnsParams) :
    zp.zoneSize % oneshotBytes zp =
      zp.pgsPerZone % zp.pgsPerOneshotpg * pgsz := by
  rw [oneshotBytes, zoneSize_pgs, Nat.mul_mod_mul_right]

/-- The bytes released for a group that ends after `pages` pages. -/
theorem bufsToRelease_eq (hend : (zid + 1) * zp.lbasPerZone < 2 ^ 32)
    {lpn pages : ℕ} (hlpn : lpn + 1 = zid * zp.pgsPerZone + pages) :
    bufsToRelease zp (zp.zoneToElpn zid) lpn =
      (if pages = zp.pgsPerZone ∧
          0 < zp.pgsPerZone % zp.pgsPerOneshotpg then
        zp.pgsPerZone % zp.pgsPerOneshotpg else zp.pgsPerOneshotpg) * pgsz := by
  have helpn := zoneToElpn_eq hend
  rw [Nat.succ_mul] at helpn
  have hcondition : (lpn = zp.zoneToElpn zid ∧
      0 < zp.zoneSize % oneshotBytes zp) ↔ (pages = zp.pgsPerZone ∧
        0 < zp.pgsPerZone % zp.pgsPerOneshotpg) := by
    rw [unalignedSpace_eq, pgsz]
    omega
  unfold bufsToRelease
  dsimp only
  by_cases hlast : pages = zp.pgsPerZone ∧
      0 < zp.pgsPerZone % zp.pgsPerOneshotpg
  · rw [if_pos (hcondition.mpr hlast), if_pos hlast, unalignedSpace_eq]
  · rw [if_neg (mt hcondition.mp hlast), if_neg hlast, oneshotBytes]

/-- The loop releases the groups that the pages from `first` to `last`
complete. -/
theorem releaseBytes_flushLoop (hend : (zid + 1) * zp.lbasPerZone < 2 ^ 32)
    (buffer : BufferId) {elpn last : ℕ}
    (helpn : elpn + 1 = zid * zp.pgsPerZone + last)
    (hlast : last ≤ zp.pgsPerZone) {fuel first : ℕ} (hfirst : first ≤ last)
    (hfuel : last ≤ first + fuel) :
    releaseBytes (flushLoop zp buffer zid (zp.zoneToElpn zid) elpn fuel
        (zid * zp.pgsPerZone + first)) +
      flushedPgs zp.pgsPerZone zp.pgsPerOneshotpg first * pgsz =
        flushedPgs zp.pgsPerZone zp.pgsPerOneshotpg last * pgsz := by
  have hpos := zp.pgsPerOneshotpg_pos
  have helpn' := zoneToElpn_eq hend
  rw [Nat.succ_mul] at helpn'
  induction fuel generalizing first with
  | zero =>
      have hdone : first = last := by omega
      simp [flushLoop, releaseBytes, hdone]
  | succ fuel ih =>
      unfold flushLoop
      by_cases hdone : first = last
      · rw [if_pos (by omega), hdone]
        simp [releaseBytes]
      · have hpage : first < zp.pgsPerZone := by omega
        have hmod := Nat.mod_lt first hpos
        rw [if_neg (by omega), lpnToPg_eq hend hpage, Nat.mod_mod]
        dsimp only
        generalize hcount : min (elpn - (zid * zp.pgsPerZone + first) + 1)
          (zp.pgsPerOneshotpg - first % zp.pgsPerOneshotpg) = count
        have hrest := @ih (first + count) (by omega) (by omega)
        rw [← Nat.add_assoc] at hrest
        rw [releaseBytes_append]
        by_cases hflush : first % zp.pgsPerOneshotpg + count =
            zp.pgsPerOneshotpg ∨ first + count = zp.pgsPerZone
        · have hlpn : zid * zp.pgsPerZone + first + count - 1 + 1 =
              zid * zp.pgsPerZone + (first + count) := by omega
          rw [if_pos (by omega), releaseBytes_singleton,
            bufsToRelease_eq hend hlpn]
          rw [flushedPgs_add_of_last hpage (by omega) (by omega) hflush,
            Nat.add_mul] at hrest
          dsimp only
          omega
        · rw [if_neg (by omega), releaseBytes_nil]
          rw [flushedPgs_add_of_inside hpage (by omega) (by omega)] at hrest
          omega

/-- The loop releases space of one buffer for one zone. -/
theorem mem_flushLoop {buffer : BufferId} {zoneElpn elpn fuel lpn : ℕ}
    {release : BufferRelease}
    (hmem : release ∈ flushLoop zp buffer zid zoneElpn elpn fuel lpn) :
    release.buffer = buffer ∧ release.zid = zid := by
  induction fuel generalizing lpn with
  | zero => cases hmem
  | succ fuel ih =>
      unfold flushLoop at hmem
      split at hmem
      · cases hmem
      dsimp only at hmem
      rcases List.mem_append.mp hmem with hfirst | hrest
      · split at hfirst
        · rw [List.mem_singleton.mp hfirst]
          exact ⟨rfl, rfl⟩
        · cases hfirst
      · exact ih hrest

end Pages

end NvmeVirt.Zns
