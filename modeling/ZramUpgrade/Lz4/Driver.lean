import ZramUpgrade.Lz4.Compress
import ZramUpgrade.Lz4.Decompress

/-!
# Lz4.Driver — the `lz4-new-generic` crypto driver (`src/lz4-upgrade-driver.c`)

One tfm: `cra_init` allocates and zeroes the LZ4 state, each `coa_compress` reuses it through the
fast reset, `coa_decompress` keeps no state.  `Reachable` are the states of a tfm after any
successful init and any calls of `coa_compress`.
-/

namespace ZramUpgrade.Lz4

open Lib

abbrev INT_MAX : ℕ := 2 ^ 31 - 1
abbrev EINVAL : ℤ := 22
abbrev ENOMEM : ℤ := 12
abbrev E2BIG : ℤ := 7

/-- `struct lz4_upgrade_ctx` after a successful init: the LZ4 state `wmem` points to. -/
structure Lz4UpgradeCtx where
  wmem : Stream

/-- `lz4_upgrade_init`; `vmalloc` may fail, `LZ4_initStream` on its block cannot. -/
def lz4UpgradeInit (vmalloc : Bool) : Except ℤ Lz4UpgradeCtx :=
  if vmalloc then .ok ⟨initStream⟩ else .error (-ENOMEM)

/-- What a crypto call leaves: the return code, `*dlen`, `dst` and the tfm. -/
structure CallResult where
  code : ℤ
  dlen : ℕ
  dst : Mem
  ctx : Lz4UpgradeCtx
  ok : Bool

def lz4UpgradeCompress (ctx : Lz4UpgradeCtx) (src : Mem) (slen : ℕ) (dst : Mem) (dlen : ℕ) :
    Option CallResult :=
  if INT_MAX < slen ∨ INT_MAX < dlen then some ⟨-E2BIG, dlen, dst, ctx, true⟩
  else do
    let r ← compressFastExtStateFastReset ctx.wmem src dst slen dlen 1
    if r.ret = 0 then return ⟨-EINVAL, dlen, r.dst, ⟨r.cctx⟩, r.ok⟩
    else return ⟨0, r.ret, r.dst, ⟨r.cctx⟩, r.ok⟩

def lz4UpgradeDecompress (ctx : Lz4UpgradeCtx) (src : Mem) (slen : ℕ) (dst : Mem) (dlen : ℕ) :
    Option CallResult :=
  if INT_MAX < slen ∨ INT_MAX < dlen then some ⟨-E2BIG, dlen, dst, ctx, true⟩
  else do
    let r ← decompressSafe src dst slen dlen
    if r.ret < 0 then return ⟨-EINVAL, dlen, r.dst, ctx, r.ok⟩
    else return ⟨0, r.ret.toNat, r.dst, ctx, r.ok⟩

/-- The states of one tfm: after a successful init, and after any further compress call. -/
inductive Reachable : Lz4UpgradeCtx → Prop where
  | init {vmalloc : Bool} {ctx : Lz4UpgradeCtx} (h : lz4UpgradeInit vmalloc = .ok ctx) : Reachable ctx
  | compress {ctx : Lz4UpgradeCtx} (h : Reachable ctx) {src dst : Mem} {slen dlen : ℕ}
      {r : CallResult} (hr : lz4UpgradeCompress ctx src slen dst dlen = some r) : Reachable r.ctx

end ZramUpgrade.Lz4
