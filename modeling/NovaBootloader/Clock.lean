import Mathlib.Tactic

/-!
# `main.c`: starting the system clock

The clock registers hold what software wrote. The ready flags and the switch status are read-only
and come from the hardware: `polls k` is what they show at the `k`-th poll, an arbitrary trace. Every
wait for a flag is bounded.
-/

namespace NovaBootloader

structure BuildConfig where
  use120MHz : Bool
  hseFailTest : Bool
deriving DecidableEq, Repr

def rccCrHseon : UInt32 := (1 : UInt32) <<< 16
def rccCrHserdy : UInt32 := (1 : UInt32) <<< 17
def rccCrPllon : UInt32 := (1 : UInt32) <<< 24
def rccCrPllrdy : UInt32 := (1 : UInt32) <<< 25

def rccCfgrSwPll : UInt32 := 0x02
def rccCfgrSws : UInt32 := 0x0C
def rccCfgrSwsPll : UInt32 := 0x08
def rccCfgrPllsrcHse : UInt32 := (1 : UInt32) <<< 16
def rccCfgrPllmull : UInt32 := (15 : UInt32) <<< 18
def rccCfgrPllmull9 : UInt32 := (7 : UInt32) <<< 18
def rccCfgrPllmull15 : UInt32 := (13 : UInt32) <<< 18
def rccCfgrPpre1Div2 : UInt32 := (4 : UInt32) <<< 8
def rccCfgrPpre1Div4 : UInt32 := (5 : UInt32) <<< 8

def rccTimeout : ℕ := 200000

/-- What the read-only bits of the two registers show. -/
structure RccFlags where
  hserdy : Bool
  pllrdy : Bool
  sws : BitVec 2
deriving DecidableEq, Repr

/-- `RCC_CR`, `RCC_CFGR` and `FLASH_ACR` as software wrote them, and the flags still to be seen. -/
structure Rcc where
  cr : UInt32
  cfgr : UInt32
  acr : UInt32
  polls : ℕ → RccFlags
  reads : ℕ

namespace Rcc

def reset (polls : ℕ → RccFlags) : Rcc where
  cr := 0x83
  cfgr := 0
  acr := 0x30
  polls := polls
  reads := 0

def readCr (r : Rcc) : UInt32 :=
  (r.cr ||| if (r.polls r.reads).hserdy then rccCrHserdy else 0) |||
    if (r.polls r.reads).pllrdy then rccCrPllrdy else 0

def readCfgr (r : Rcc) : UInt32 := r.cfgr ||| UInt32.ofNat ((r.polls r.reads).sws.toNat <<< 2)

def writeCr (value : UInt32) (r : Rcc) : Rcc :=
  { r with cr := value &&& ~~~(rccCrHserdy ||| rccCrPllrdy) }

/-- A write to `RCC_CFGR`. `SWS` is read-only, and `PLLMUL` keeps its value while the PLL is on. -/
def writeCfgr (value : UInt32) (r : Rcc) : Rcc :=
  let value := value &&& ~~~rccCfgrSws
  { r with cfgr :=
      if r.cr &&& rccCrPllon = 0 then value
      else (value &&& ~~~rccCfgrPllmull) ||| (r.cfgr &&& rccCfgrPllmull) }

end Rcc

/-- The bounded poll of a flag, with the number of polls still allowed. -/
def rccWait (reg : Rcc → UInt32) (mask want : UInt32) : ℕ → Rcc → Rcc × Bool
  | 0, r => (r, false)
  | n + 1, r =>
    let r' := { r with reads := r.reads + 1 }
    if reg r &&& mask = want then (r', true) else rccWait reg mask want n r'

/-- A test build leaves the oscillator off and waits for its flag to fall. -/
def hseStart (cfg : BuildConfig) (r : Rcc) : Rcc :=
  if cfg.hseFailTest then
    (rccWait Rcc.readCr rccCrHserdy 0 rccTimeout (r.writeCr (r.cr &&& ~~~rccCrHseon))).1
  else r.writeCr (r.cr ||| rccCrHseon)

def clockFallbackHsi (r : Rcc) : Rcc :=
  let r := r.writeCfgr 0
  let r := r.writeCr (r.cr &&& ~~~(rccCrPllon ||| rccCrHseon))
  { r with acr := 0x30 }

def clockInit (cfg : BuildConfig) (r : Rcc) : Rcc × Int :=
  let r := { r with acr := if cfg.use120MHz then 0x33 else 0x32 }
  let w := rccWait Rcc.readCr rccCrHserdy rccCrHserdy rccTimeout (hseStart cfg r)
  if !w.2 then (clockFallbackHsi w.1, 0)
  else
    let r := w.1.writeCfgr
      (if cfg.use120MHz then rccCfgrPllsrcHse ||| rccCfgrPllmull15 ||| rccCfgrPpre1Div4
       else rccCfgrPllsrcHse ||| rccCfgrPllmull9 ||| rccCfgrPpre1Div2)
    let r := r.writeCr (r.cr ||| rccCrPllon)
    let w := rccWait Rcc.readCr rccCrPllrdy rccCrPllrdy rccTimeout r
    if !w.2 then (clockFallbackHsi w.1, 0)
    else
      let r := w.1.writeCfgr (w.1.cfgr ||| rccCfgrSwPll)
      let w := rccWait Rcc.readCfgr rccCfgrSws rccCfgrSwsPll rccTimeout r
      if !w.2 then (clockFallbackHsi w.1, 0) else (w.1, 1)

end NovaBootloader
