import NovaBootloader.ArmProgram
import NovaBootloader.Boot

/-!
# `Reset_Handler` and `jump_to_app`: the assembly around `main`

The reset handler sets the stack pointer, copies `.data` from flash and clears `.bss`; `jump_to_app`
hands the core over to the application. Both run on the addresses that the linker script assigns.
`main` finds what the reset handler leaves, and the DFU request of the application lies in RAM
between `.bss` and the stack.
-/

namespace NovaBootloader
open ByteMemory ArmProgram

def dfuMagicAddr : UInt32 := 0x20004FF0

def vtorAddr : UInt32 := 0xE000ED08

/-- The symbols of the startup code. `bootloader.ld` puts `.data` at the start of RAM and `.bss`
behind it, both in whole words and with room for heap and stack above them, and the load image of
`.data` into the 12 KB of flash. -/
structure Sections where
  sidata : UInt32
  sdata : UInt32
  edata : UInt32
  sbss : UInt32
  ebss : UInt32
  sdata_eq : sdata = ramBase
  data_le : sdata.toNat ≤ edata.toNat
  bss_after : edata.toNat ≤ sbss.toNat
  bss_le : sbss.toNat ≤ ebss.toNat
  edata_word : edata.toNat % 4 = 0
  sbss_word : sbss.toNat % 4 = 0
  ebss_word : ebss.toNat % 4 = 0
  stack : ebss.toNat + 0x600 ≤ estack.toNat
  image_start : 0x08000000 ≤ sidata.toNat
  image_end : sidata.toNat + (edata.toNat - sdata.toNat) ≤ 0x08003000

/-- The script's `ASSERT`. -/
structure Layout extends Sections where
  magic_free : ebss.toNat ≤ dfuMagicAddr.toNat

def resetHandler (s : Sections) : List Instr :=
  [.ldrConst .r0 estack,
    .mov .sp .r0,
    -- copy `.data`
    .ldrConst .r0 s.sdata,
    .ldrConst .r1 s.edata,
    .ldrConst .r2 s.sidata,
    .b 8,
    .ldrPost .r3 .r2 4, -- 1:
    .strPost .r3 .r0 4,
    .cmp .r0 .r1, -- 2:
    .blo 6,
    -- zero `.bss`
    .ldrConst .r0 s.sbss,
    .ldrConst .r1 s.ebss,
    .movImm .r2 0,
    .b 15,
    .strPost .r2 .r0 4, -- 3:
    .cmp .r0 .r1, -- 4:
    .blo 14,
    .bl,
    .b 18] -- 5:

def jumpToAppCode : List Instr :=
  [.cpsid,
    .ldrConst .r0 vtorAddr,
    .ldrConst .r1 appAddress,
    .str .r1 .r0,
    .barrier,
    .barrier,
    .ldr .r0 .r1 0,
    .ldr .r2 .r1 4,
    .msrMsp .r0,
    .bx .r2]

/-- The memory `main` starts on: `.data` from its image, `.bss` zero, the rest as the reset found
it. -/
structure Initialised (s : Sections) (before after : ℕ → UInt8) : Prop where
  data : ∀ i, s.sdata.toNat + i < s.edata.toNat →
    after (s.sdata.toNat + i) = before (s.sidata.toNat + i)
  bss : ∀ x, s.sbss.toNat ≤ x → x < s.ebss.toNat → after x = 0
  frame : ∀ x, ¬ (s.sdata.toNat ≤ x ∧ x < s.edata.toNat) → ¬ (s.sbss.toNat ≤ x ∧ x < s.ebss.toNat) →
    after x = before x

namespace Sections

variable (s : Sections)

theorem toNat_sdata : s.sdata.toNat = 0x20000000 := by
  rw [s.sdata_eq]
  rfl

def initialise (m : ℕ → UInt8) : ℕ → UInt8 :=
  overwrite (overwrite m s.sdata.toNat (s.edata.toNat - s.sdata.toNat)
    fun i => m (s.sidata.toNat + i)) s.sbss.toNat (s.ebss.toNat - s.sbss.toNat) fun _ => 0

theorem initialised (m : ℕ → UInt8) : Initialised s m (s.initialise m) := by
  have hdata := s.data_le
  have hafter := s.bss_after
  have hbss := s.bss_le
  refine ⟨fun i hi => ?_, fun x hlo hhi => ?_, fun x hd hb => ?_⟩
  · rw [initialise, overwrite_of_not_mem (by omega), overwrite_of_mem (by omega) (by omega),
      Nat.add_sub_cancel_left]
  · exact overwrite_of_mem hlo (by omega)
  · rw [initialise, overwrite_of_not_mem (by omega), overwrite_of_not_mem (by omega)]

end Sections

theorem resetHandler_leaves (s : Sections) (c : Cpu) : ∃ c', Leaves (resetHandler s) 0 c .call c' ∧
    c'.mem = s.initialise c.mem ∧ c'.reg .sp = estack ∧ c'.primask = c.primask := by
  have hdata := s.data_le
  have hbss := s.bss_le
  have hsdata := s.toNat_sdata
  have hedata := s.edata_word
  have hsbss := s.sbss_word
  have hebss := s.ebss_word
  have himage := s.image_end
  -- up to the comparison of the first loop
  let c₁ := ((((c.set .r0 estack).set .sp estack).set .r0 s.sdata).set .r1 s.edata).set .r2 s.sidata
  have h₁ : Reaches (resetHandler s) 0 c 8 c₁ :=
    .next rfl rfl (.next rfl rfl (.next rfl rfl (.next rfl rfl (.next rfl rfl (.single rfl rfl)))))
  let dataWords := (s.edata.toNat - s.sdata.toNat) / 4
  have hdataEnd : s.edata.toNat = s.sdata.toNat + 4 * dataWords := by omega
  obtain ⟨c₂, h₂, hmem₂, hframe₂⟩ : ∃ c₂, Reaches (resetHandler s) (6 + 2) c₁ (6 + 4) c₂ ∧
      c₂.mem = overwrite c₁.mem s.sdata.toNat (4 * dataWords)
        (fun i => c₁.mem (s.sidata.toNat + i)) ∧
      Frame (fun r => r = .r3 ∨ r = .r2 ∨ r = .r0) c₁ c₂ :=
    copy_loop rfl rfl rfl rfl (by decide) rfl rfl hdataEnd (by omega) (Or.inl (by omega))
  -- up to the comparison of the second loop
  let c₃ := ((c₂.set .r0 s.sbss).set .r1 s.ebss).set .r2 0
  have h₃ : Reaches (resetHandler s) 10 c₂ 15 c₃ :=
    .next rfl rfl (.next rfl rfl (.next rfl rfl (.single rfl rfl)))
  let bssWords := (s.ebss.toNat - s.sbss.toNat) / 4
  have hbssEnd : s.ebss.toNat = s.sbss.toNat + 4 * bssWords := by omega
  obtain ⟨c₄, h₄, hmem₄, hframe₄⟩ : ∃ c₄, Reaches (resetHandler s) (14 + 1) c₃ (14 + 3) c₄ ∧
      c₄.mem = overwrite c₃.mem s.sbss.toNat (4 * bssWords) (fun _ => 0) ∧
      Frame (fun r => r = .r0) c₃ c₄ :=
    clear_loop rfl rfl rfl (by decide) rfl rfl hbssEnd
  refine ⟨c₄, .of_reaches (h₁.trans (h₂.trans (h₃.trans h₄))) (.of_exit rfl rfl), ?_, ?_, ?_⟩
  · have hdataSize : 4 * ((s.edata.toNat - s.sdata.toNat) / 4) = s.edata.toNat - s.sdata.toNat := by
      omega
    have hbssSize : 4 * ((s.ebss.toNat - s.sbss.toNat) / 4) = s.ebss.toNat - s.sbss.toNat := by
      omega
    rw [hmem₄, hbssSize]
    change overwrite c₂.mem _ _ _ = _
    rw [hmem₂, hdataSize]
    rfl
  · rw [hframe₄.reg .sp (by decide)]
    change c₂.reg .sp = estack
    rw [hframe₂.reg .sp (by decide)]
    rfl
  · rw [hframe₄.primask]
    exact hframe₂.primask

/-- From any core and any memory the reset handler ends, in the call of `main`, with `.data` and
`.bss` as C expects them, nothing else in memory changed, and the stack pointer at the top of RAM. -/
theorem reset_handler_initialises (s : Sections) (c : Cpu) :
    ∃ c', Leaves (resetHandler s) 0 c .call c' ∧ Initialised s c.mem c'.mem ∧
      c'.reg .sp = estack ∧ c'.primask = c.primask ∧
      ∀ e d, Leaves (resetHandler s) 0 c e d → e = .call ∧ d = c' := by
  obtain ⟨c', hleaves, hmem, hsp, hprimask⟩ := resetHandler_leaves s c
  refine ⟨c', hleaves, ?_, hsp, hprimask, fun e d h => h.unique hleaves⟩
  rw [hmem]
  exact s.initialised c.mem

section Magic

theorem readWord_eq_loadWord (m : ℕ → UInt8) (a : ℕ) : readWord m a = loadWord m a := rfl

theorem Initialised.readWord_eq {s : Sections} {before after : ℕ → UInt8}
    (h : Initialised s before after) {a : ℕ}
    (hdata : a + 4 ≤ s.sdata.toNat ∨ s.edata.toNat ≤ a)
    (hbss : a + 4 ≤ s.sbss.toNat ∨ s.ebss.toNat ≤ a) : readWord after a = readWord before a := by
  rw [readWord_eq_loadWord, readWord_eq_loadWord]
  exact loadWord_congr fun i hi => h.frame _ (by omega) (by omega)

theorem magic_word_kept {s : Sections} {c c' : Cpu} (h : s.ebss.toNat ≤ dfuMagicAddr.toNat ∨
      s.edata.toNat ≤ dfuMagicAddr.toNat ∧ dfuMagicAddr.toNat < s.sbss.toNat)
    (hstart : Leaves (resetHandler s) 0 c .call c') :
    readWord c'.mem dfuMagicAddr.toNat = readWord c.mem dfuMagicAddr.toNat := by
  have hmagic : dfuMagicAddr.toNat = 0x20004FF0 := rfl
  have hsbss := s.sbss_word
  have hafter := s.bss_after
  have hbss := s.bss_le
  obtain ⟨d, hd, hmem, -⟩ := resetHandler_leaves s c
  obtain ⟨-, rfl⟩ := hstart.unique hd
  have hinit : Initialised s c.mem c'.mem := hmem ▸ s.initialised c.mem
  exact hinit.readWord_eq (by omega) (by omega)

/-- The startup code keeps the magic word in every memory exactly if neither section covers it. -/
theorem magic_word_survives_iff (s : Sections) :
    (∀ c c', Leaves (resetHandler s) 0 c .call c' →
      readWord c'.mem dfuMagicAddr.toNat = readWord c.mem dfuMagicAddr.toNat) ↔
    s.ebss.toNat ≤ dfuMagicAddr.toNat ∨
      s.edata.toNat ≤ dfuMagicAddr.toNat ∧ dfuMagicAddr.toNat < s.sbss.toNat := by
  have hmagic : dfuMagicAddr.toNat = 0x20004FF0 := rfl
  have hsdata := s.toNat_sdata
  have hedata := s.edata_word
  have hsbss := s.sbss_word
  have hebss := s.ebss_word
  have hafter := s.bss_after
  have hbss := s.bss_le
  have himage := s.image_end
  constructor
  · intro h
    by_contra hcovered
    generalize dfuMagicAddr.toNat = a at hmagic h hcovered
    -- a memory that is zero except for the magic word
    obtain ⟨c', hleaves, hmem, -⟩ := resetHandler_leaves s ⟨fun _ => 0, false, false, fun x =>
      if x = a then 1 else 0⟩
    have hinit := hmem ▸ s.initialised fun x => if x = a then 1 else 0
    have hzero (i : ℕ) (hi : i < 4) : c'.mem (a + i) = (fun _ => 0) (a + i) := by
      by_cases hin : a + i < s.edata.toNat
      · have hcopy := hinit.data (a + i - s.sdata.toNat) (by omega)
        rw [(by omega : s.sdata.toNat + (a + i - s.sdata.toNat) = a + i)] at hcopy
        rw [hcopy, if_neg (by omega)]
      · exact hinit.bss _ (by omega) (by omega)
    have heq := h _ _ hleaves
    have hcleared : loadWord c'.mem a = loadWord (fun _ => 0) a := loadWord_congr hzero
    rw [readWord_eq_loadWord, readWord_eq_loadWord, hcleared] at heq
    unfold loadWord at heq
    dsimp only at heq
    rw [if_pos rfl, if_neg (by omega : a + 1 ≠ a), if_neg (by omega : a + 2 ≠ a),
      if_neg (by omega : a + 3 ≠ a)] at heq
    exact absurd heq (by decide)
  · exact fun h c c' => magic_word_kept h

end Magic

def Board.onMemory (b : Board) (m : ℕ → UInt8) : Board :=
  { b with
    options := { b.options with flash := { b.options.flash with mem := m } }
    magic := readWord m dfuMagicAddr.toNat }

/-- `jump_to_app` masks interrupts, moves the vector table, loads the stack pointer from its first
word and branches to the second. -/
theorem jumpToAppCode_leaves (c : Cpu) :
    ∃ c', Leaves jumpToAppCode 0 c (.branch (appReset c.mem)) c' ∧
      c'.reg .sp = Reg.sp.keeps (appSp c.mem) ∧
      c'.primask = true ∧ c'.mem = storeWord c.mem vtorAddr.toNat appAddress := by
  have hvtor : vtorAddr.toNat = 0xE000ED08 := rfl
  have happ : appAddress.toNat = 0x08003000 := rfl
  have hload (k : ℕ) (hk : k ≤ 4) : loadWord (storeWord c.mem vtorAddr.toNat appAddress)
      (appAddress.toNat + k) = loadWord c.mem (appAddress.toNat + k) :=
    loadWord_congr fun i hi => overwrite_of_not_mem (by omega)
  let c₁ : Cpu := ((({ c with primask := true } : Cpu).set .r0 vtorAddr).set .r1 appAddress).store
    vtorAddr appAddress
  have h₁ : Reaches jumpToAppCode 0 c 6 c₁ :=
    .next rfl rfl (.next rfl rfl (.next rfl rfl (.next rfl rfl (.next rfl rfl (.single rfl rfl)))))
  let c₂ := (c₁.set .r0 (loadWord c₁.mem (c₁.reg .r1 + 0).toNat))
  let c₃ := (c₂.set .r2 (loadWord c₂.mem (c₂.reg .r1 + 4).toNat))
  have h₂ : Reaches jumpToAppCode 6 c₁ 9 (c₃.set .sp (c₃.reg .r0)) :=
    .next rfl rfl (.next rfl rfl (.single rfl rfl))
  have hsp : c₃.reg .r0 = appSp c.mem := hload 0 (by omega)
  have hreset : c₃.reg .r2 = appReset c.mem := hload 4 (by omega)
  refine ⟨c₃.set .sp (c₃.reg .r0), ?_, ?_, rfl, rfl⟩
  · rw [← hreset]
    exact .of_reaches (h₁.trans h₂) (.of_exit rfl rfl)
  · rw [Cpu.set_reg_self, hsp]

/-- Rounding a stack pointer down to a word keeps it in RAM. -/
theorem SpInRam.keeps {sp : UInt32} (h : SpInRam sp) : SpInRam (Reg.sp.keeps sp) := by
  have hbase : ramBase.toNat = 0x20000000 := rfl
  obtain ⟨hlo, hhi⟩ := h
  rw [UInt32.le_iff_toNat_le] at hlo hhi
  constructor
  · rw [UInt32.le_iff_toNat_le, Reg.toNat_keeps_sp]
    omega
  · rw [UInt32.le_iff_toNat_le, Reg.toNat_keeps_sp]
    omega

/-- A boot that jumps reaches the application with the reset vector that flash held before the reset
and with the stack pointer flash held, less its two low bits: `app_valid` does not ask for an
aligned one. -/
theorem reset_reaches_application (L : Layout) {c c' : Cpu}
    (hstart : Leaves (resetHandler L.toSections) 0 c .call c') (cfg : BuildConfig) (b : Board)
    {sp pc : UInt32} (hjump : ((b.onMemory c'.mem).main cfg).2 = .jump sp pc) {d : Cpu}
    (hd : ∀ x, 0x08003000 ≤ x → x < 0x08003008 → d.mem x = c'.mem x) :
    sp = readWord c.mem 0x08003000 ∧ pc = readWord c.mem 0x08003004 ∧ SpInRam sp ∧
      ∃ d', Leaves jumpToAppCode 0 d (.branch pc) d' ∧ d'.reg .sp = sp &&& 0xFFFFFFFC ∧
        SpInRam (d'.reg .sp) ∧ (sp.toNat % 4 = 0 → d'.reg .sp = sp) ∧ d'.primask = true ∧
        readWord d'.mem vtorAddr.toNat = appAddress ∧
        ∀ x, ¬ (vtorAddr.toNat ≤ x ∧ x < vtorAddr.toNat + 4) → d'.mem x = d.mem x := by
  obtain ⟨k, hk, hmem, -⟩ := resetHandler_leaves L.toSections c
  obtain ⟨-, rfl⟩ := hstart.unique hk
  have hinit : Initialised L.toSections c.mem c'.mem := hmem ▸ L.initialised c.mem
  have hsdata := L.toNat_sdata
  have hafter := L.bss_after
  have hle := L.data_le
  have hword (a : ℕ) (ha : a + 4 ≤ 0x08003008) : readWord c'.mem a = readWord c.mem a :=
    hinit.readWord_eq (by omega) (by omega)
  have hflash (a : ℕ) (hlo : 0x08003000 ≤ a) (hhi : a + 4 ≤ 0x08003008) :
      readWord d.mem a = readWord c'.mem a :=
    loadWord_congr fun i hi => hd _ (by omega) (by omega)
  obtain ⟨hvalid, -, hsp, hpc⟩ := (Board.main_eq_jump_iff cfg (b.onMemory c'.mem)).mp hjump
  obtain ⟨d', hleaves, hdsp, hprimask, hdmem⟩ := jumpToAppCode_leaves d
  have hsp' : sp = appSp d.mem := hsp.trans (hflash 0x08003000 (by omega) (by omega)).symm
  have hpc' : pc = appReset d.mem := hpc.trans (hflash 0x08003004 (by omega) (by omega)).symm
  have hram : SpInRam sp := by
    rw [hsp]
    exact ((appValid_iff _).mp hvalid).1
  rw [← hsp'] at hdsp
  refine ⟨hsp.trans (hword 0x08003000 (by omega)), hpc.trans (hword 0x08003004 (by omega)), hram,
    d', hpc' ▸ hleaves, hdsp, hdsp ▸ hram.keeps, fun haligned => ?_, hprimask, ?_, fun x hx => ?_⟩
  · apply UInt32.toNat.inj
    rw [hdsp, Reg.toNat_keeps_sp]
    omega
  · rw [hdmem]
    exact loadWord_storeWord _ _ _
  · rw [hdmem]
    exact overwrite_of_not_mem hx

def smallLayout : Layout where
  sidata := 0x08002000
  sdata := 0x20000000
  edata := 0x20000010
  sbss := 0x20000010
  ebss := 0x20001000
  sdata_eq := rfl
  data_le := by decide
  bss_after := by decide
  bss_le := by decide
  edata_word := by decide
  sbss_word := by decide
  ebss_word := by decide
  stack := by decide
  image_start := by decide
  image_end := by decide
  magic_free := by decide

def coreOver (sp pc magic : UInt32) : Cpu :=
  ⟨fun _ => 0, false, false, storeWord (storeWord (storeWord (fun _ => 0xFF) 0x08003000 sp)
    0x08003004 pc) dfuMagicAddr.toNat magic⟩

def runningBoard : Board := Board.released (fun _ => 0xFF) fun _ => ⟨true, true, 2⟩

/-- The stack pointer of the image is not a word address. -/
theorem plausible_image_reached : ∃ c' d',
    Leaves (resetHandler smallLayout.toSections) 0 (coreOver 0x20001001 0x08003101 0) .call c' ∧
      Leaves jumpToAppCode 0 c' (.branch 0x08003101) d' ∧ d'.reg .sp = 0x20001000 := by
  obtain ⟨c', hstart, hmem, -⟩ :=
    resetHandler_leaves smallLayout.toSections (coreOver 0x20001001 0x08003101 0)
  have hjump : ((runningBoard.onMemory c'.mem).main ⟨false, false⟩).2 =
      .jump 0x20001001 0x08003101 := by
    rw [hmem]
    rfl
  obtain ⟨-, -, -, d', hleaves, hsp, -⟩ :=
    reset_reaches_application smallLayout hstart _ runningBoard hjump fun _ _ _ => rfl
  exact ⟨c', d', hstart, hleaves, hsp⟩

/-- With the clock it needs `run_dfu_mode` gets to `dfu_init`, unless it has to reset first. -/
theorem Board.runDfuMode_serves {cfg : BuildConfig} {b : Board} (h72 : cfg.use120MHz = false)
    (hclock : (clockInit cfg b.rcc).2 ≠ 0) :
    (∃ s, (b.runDfuMode cfg).2 = .dfu s ∧ (b.runDfuMode cfg).1.magic = b.magic) ∨
      (b.runDfuMode cfg).2 = .reset ∧ (b.runDfuMode cfg).1.magic = dfuMagicValue := by
  unfold Board.runDfuMode
  rw [if_neg (by simp [h72]), if_neg hclock]
  dsimp only
  split_ifs with hprotected
  · exact Or.inr ⟨rfl, rfl⟩
  · exact Or.inl ⟨_, rfl, rfl⟩

/-- A DFU request that the application leaves in RAM gets through the startup code: the build that
can serve it enters DFU mode and consumes it, or resets to lift write protection and renews it. -/
theorem dfu_request_survives (L : Layout) {c c' : Cpu}
    (hstart : Leaves (resetHandler L.toSections) 0 c .call c')
    (hrequest : readWord c.mem dfuMagicAddr.toNat = dfuMagicValue) {cfg : BuildConfig} (b : Board)
    (h72 : cfg.use120MHz = false) (hclock : (clockInit cfg b.rcc).2 ≠ 0) :
    (∃ s, ((b.onMemory c'.mem).main cfg).2 = .dfu s ∧ ((b.onMemory c'.mem).main cfg).1.magic = 0) ∨
      ((b.onMemory c'.mem).main cfg).2 = .reset ∧
        ((b.onMemory c'.mem).main cfg).1.magic = dfuMagicValue := by
  have hmagic : (b.onMemory c'.mem).magic = dfuMagicValue :=
    (magic_word_kept (Or.inl L.magic_free) hstart).trans hrequest
  have hset : magicRamSet (b.onMemory c'.mem).magic = true := decide_eq_true hmagic
  have henter : (b.onMemory c'.mem).entersDfu = true := by
    unfold Board.entersDfu
    rw [hset, Bool.or_true, Bool.true_or]
  rw [Board.main_of_entersDfu cfg _ henter, if_pos hset]
  exact Board.runDfuMode_serves (b := { b.onMemory c'.mem with magic := 0 }) h72 hclock

theorem dfu_request_over_application_survives : ∃ c', Leaves (resetHandler smallLayout.toSections) 0
      (coreOver 0x20001000 0x08003101 dfuMagicValue) .call c' ∧
    ((∃ s, ((runningBoard.onMemory c'.mem).main ⟨false, false⟩).2 = .dfu s ∧
        ((runningBoard.onMemory c'.mem).main ⟨false, false⟩).1.magic = 0) ∨
      ((runningBoard.onMemory c'.mem).main ⟨false, false⟩).2 = .reset ∧
        ((runningBoard.onMemory c'.mem).main ⟨false, false⟩).1.magic = dfuMagicValue) := by
  obtain ⟨c', hstart, -⟩ :=
    resetHandler_leaves smallLayout.toSections (coreOver 0x20001000 0x08003101 dfuMagicValue)
  exact ⟨c', hstart, dfu_request_survives smallLayout hstart (by decide) runningBoard rfl (by decide)⟩

end NovaBootloader
