import NovaBootloader.Transition
import NovaBootloader.TxBuffer

/-!
# A refused DNLOAD and the data stage behind it

`handle_dfu_dnload` answers a DNLOAD it refuses with STALL, which leaves reception enabled, and
`handle_ep0_out` takes the packets that follow by the state alone. So the data stage of a refused
request is harmless in every state but dfuDNLOAD-SYNC, where it ends up in the buffer of the
download in progress.
-/

namespace NovaBootloader
open ByteMemory

def IsDataStage (packets : List OutPacket) (n : ℕ) : Prop :=
  (packets.map fun d => d.bytes.length).sum = n

structure SameDownload (d d' : Dfu) : Prop where
  bufferLen : d'.bufferLen = d.bufferLen
  buffer : ∀ i < d.bufferLen, d'.buffer i = d.buffer i
  cmdPending : d'.cmdPending = d.cmdPending
  cmdHasArg : d'.cmdHasArg = d.cmdHasArg
  cmdArg : d'.cmdArg = d.cmdArg

namespace Machine

def afterRequest (s : Machine) (p : SetupPacket) (packets : List OutPacket) : Machine :=
  s.run (.setup p :: packets.map .out)

/-- The request and its data stage, in any packets, leave the download in progress alone and are
never acknowledged, and whatever follows finds the same DFU variables, the same flash and the same
answers to GETSTATUS as without them. -/
structure RefusalHarmless (s : Machine) (p : SetupPacket) : Prop where
  undisturbed : ∀ packets, IsDataStage packets p.wLength.toNat → ∀ k,
    SameDownload s.core.dfu (s.afterRequest p (packets.take k)).core.dfu
  unacknowledged : ∀ packets, IsDataStage packets p.wLength.toNat → ∀ k,
    (s.afterRequest p (packets.take k)).ep0r.statTx ≠ EpStat.valid
  later : ∀ packets, IsDataStage packets p.wLength.toNat → ∀ es,
    ((s.afterRequest p packets).run es).core = (s.run es).core
  status : ∀ packets, IsDataStage packets p.wLength.toNat → ∀ es q, q.IsDfu dfuGetstatus →
    ((s.afterRequest p packets).run (es ++ [.setup q])).txPacket =
      (s.run (es ++ [.setup q])).txPacket

end Machine

namespace Machine

variable {s : Machine}

theorem step_refused (hq : s.Quiet) {p : SetupPacket} (hrequest : request p s.core = (s.core, .stall)) :
    (s.step (.setup p)).core = s.core ∧ (s.step (.setup p)).ep0r.statTx = EpStat.stall := by
  rw [step_rx hq, if_neg Bool.false_ne_true]
  change (s.receive (.setup p)).core = _ ∧ (s.receive (.setup p)).ep0r.statTx = _
  rw [receive_setup, hrequest]
  exact ⟨rfl, by simp [runCall, ep0Stall]⟩

/-- Outside dfuDNLOAD-SYNC an OUT packet changes nothing and is not acknowledged. -/
theorem step_out_ignored (hq : s.Quiet) (hs : s.core.dfu.state ≠ .dnloadSync) (d : OutPacket) :
    (s.step (.out d)).core = s.core ∧ (s.step (.out d)).ep0r.statTx = s.ep0r.statTx := by
  rw [step_rx hq, if_neg Bool.false_ne_true]
  change (s.receive (.out d)).core = _ ∧ (s.receive (.out d)).ep0r.statTx = _
  rw [receive_out]
  dsimp only
  rw [if_neg fun h => hs h.1]
  exact ⟨rfl, by simp [latchRx]⟩

/-- In dfuDNLOAD-SYNC a packet with data is taken, and acknowledged once the announced number of
bytes is there. -/
theorem step_out_taken (hq : s.Quiet) (hs : s.core.dfu.state = .dnloadSync) {d : OutPacket}
    (hpos : 0 < d.bytes.length) :
    (s.step (.out d)).core.dfu = (dataStage (ofList d.bytes) d.bytes.length s.core.dfu).1 ∧
      ((dataStage (ofList d.bytes) d.bytes.length s.core.dfu).2 = true →
        (s.step (.out d)).ep0r.statTx = EpStat.valid) := by
  rw [step_rx hq, if_neg Bool.false_ne_true]
  change (s.receive (.out d)).core.dfu = _ ∧ (_ → (s.receive (.out d)).ep0r.statTx = _)
  rw [receive_out]
  dsimp only
  rw [if_pos ⟨hs, hpos⟩]
  refine ⟨?_, fun hack => ?_⟩
  · split_ifs <;> rfl
  · rw [if_pos hack]
    simp [ep0SendZlp]

theorem run_out_ignored (hq : s.Quiet) (hs : s.core.dfu.state ≠ .dnloadSync)
    (packets : List OutPacket) : (s.run (packets.map .out)).core = s.core ∧
      (s.run (packets.map .out)).ep0r.statTx = s.ep0r.statTx := by
  induction packets generalizing s with
  | nil => exact ⟨rfl, rfl⟩
  | cons d packets ih =>
    obtain ⟨hcore, hstat⟩ := step_out_ignored hq hs d
    obtain ⟨ihcore, ihstat⟩ := ih (step_quiet hq _) (by rwa [hcore])
    exact ⟨ihcore.trans hcore, ihstat.trans hstat⟩

theorem afterRequest_refused (hq : s.Quiet) (hs : s.core.dfu.state ≠ .dnloadSync) {p : SetupPacket}
    (hrequest : request p s.core = (s.core, .stall)) (packets : List OutPacket) :
    (s.afterRequest p packets).core = s.core ∧
      (s.afterRequest p packets).ep0r.statTx = EpStat.stall := by
  obtain ⟨hcore, hstat⟩ := step_refused hq hrequest
  obtain ⟨ihcore, ihstat⟩ := run_out_ignored (step_quiet hq _) (by rwa [hcore]) packets
  exact ⟨ihcore.trans hcore, ihstat.trans hstat⟩

theorem step_getstatus_txPacket {s' : Machine} (hq : s.Quiet) (hq' : s'.Quiet)
    (hcore : s'.core = s.core) {q : SetupPacket} (hget : q.IsDfu dfuGetstatus) :
    (s'.step (.setup q)).txPacket = (s.step (.setup q)).txPacket := by
  have hcall (c : Core) := congrArg Prod.snd (request_getstatus hget c)
  have hsize : 6 < ep0MaxSize := by decide
  have hanswer := (offered_eq_some_iff.mp (step_reply hq (hcall s.core) hsize false)).2
  have hanswer' := (offered_eq_some_iff.mp (step_reply hq' (hcall s'.core) hsize false)).2
  exact hanswer'.symm.trans (hcore ▸ hanswer)

theorem refusalHarmless_of_state_ne {p : SetupPacket} (hq : s.Quiet)
    (hrequest : request p s.core = (s.core, .stall)) (hs : s.core.dfu.state ≠ .dnloadSync) :
    s.RefusalHarmless p := by
  have hquiet (packets : List OutPacket) : (s.afterRequest p packets).Quiet := run_quiet hq _
  have hrun (packets : List OutPacket) (es : List UsbEvent) :
      ((s.afterRequest p packets).run es).core = (s.run es).core := by
    rw [run_core (hquiet packets), run_core hq, (afterRequest_refused hq hs hrequest packets).1]
  refine ⟨fun packets _ k => ?_, fun packets _ k => ?_, fun packets _ es => hrun packets es,
    fun packets _ es q hget => ?_⟩
  · rw [(afterRequest_refused hq hs hrequest _).1]
    exact ⟨rfl, fun _ _ => rfl, rfl, rfl, rfl⟩
  · rw [(afterRequest_refused hq hs hrequest _).2]
    decide
  · unfold run
    rw [StepSystem.run_append, StepSystem.run_append]
    exact step_getstatus_txPacket (run_quiet hq es) (run_quiet (hquiet packets) es)
      (hrun packets es) hget

theorem dataStage_one {d : Dfu} (hc : d.Consistent) (hs : d.state = .dnloadSync)
    (data : ℕ → UInt8) : (dataStage data 1 d).2 = true ∨
      (dataStage data 1 d).1.bufferLen = d.bufferLen + 1 := by
  have hxfer := (hc.xferLen (Or.inl hs)).2
  have hlen := hc.bufferLen_le
  unfold dataStage appendData
  by_cases hfit : d.bufferLen + 1 ≤ dfuXferSize
  · rw [if_pos hfit]
    dsimp only
    split_ifs
    · exact Or.inl rfl
    · exact Or.inl rfl
    · exact Or.inr rfl
  · rw [if_neg hfit]
    dsimp only
    rw [if_pos (by omega)]
    exact Or.inl rfl

theorem not_refusalHarmless {p : SetupPacket} (hst : s.Stable)
    (hrequest : request p s.core = (s.core, .stall)) (hpos : 0 < p.wLength.toNat)
    (hs : s.core.dfu.state = .dnloadSync) : ¬ s.RefusalHarmless p := by
  intro h
  let byte : OutPacket := ⟨[0], by decide⟩
  have hstage : IsDataStage (List.replicate p.wLength.toNat byte) p.wLength.toNat := by
    simp [IsDataStage, byte]
  have htake : (List.replicate p.wLength.toNat byte).take 1 = [byte] := by
    rw [List.take_replicate, min_eq_left (show 1 ≤ p.wLength.toNat from hpos)]
    rfl
  have hcore := (step_refused hst.quiet hrequest).1
  have htaken := step_out_taken (step_quiet hst.quiet (.setup p)) (d := byte) (by rwa [hcore])
    (by decide)
  have hun := h.undisturbed _ hstage 1
  have hack := h.unacknowledged _ hstage 1
  rw [htake] at hun hack
  rw [hcore] at htaken
  rcases dataStage_one hst.consistent hs (ofList byte.bytes) with hfull | hkept
  · exact hack (htaken.2 hfull)
  · have hlen := hun.bufferLen
    change ((s.step (.setup p)).step (.out byte)).core.dfu.bufferLen = _ at hlen
    rw [htaken.1] at hlen
    change (dataStage (ofList byte.bytes) 1 s.core.dfu).1.bufferLen = _ at hlen
    omega

/-- The data stage of a refused DNLOAD is harmless exactly outside dfuDNLOAD-SYNC. -/
theorem refused_dnload_harmless_iff (hs : s.Reachable) {p : SetupPacket} (hp : p.IsDfu dfuDnload)
    (hpos : 1 ≤ p.wLength.toNat) (hlen : p.wLength.toNat ≤ 1024)
    (hrefused : ¬ Accepts p s.core.dfu) :
    s.RefusalHarmless p ↔ s.core.dfu.state ≠ .dnloadSync := by
  have hrequest := request_of_refused hp hpos hlen hrefused
  constructor
  · intro h hsync
    exact not_refusalHarmless hs.stable hrequest hpos hsync h
  · exact refusalHarmless_of_state_ne hs.stable.quiet hrequest

theorem refused_block_one_harmless : erased.RefusalHarmless (.dnload 1 4) ↔
    erased.core.dfu.state ≠ .dnloadSync :=
  refused_dnload_harmless_iff ⟨_, _, [], rfl⟩ (by decide) (by decide) (by decide) (by decide)

def halfReceived : Machine :=
  erased.run [.setup (.dnload 2 4), .out (.ofBytes [0x11, 0x22])]

theorem refused_bytes_appended :
    halfReceived.Reachable ∧ ¬ Accepts (.dnload 3 1) halfReceived.core.dfu ∧
      ¬ halfReceived.RefusalHarmless (.dnload 3 1) := by
  refine ⟨⟨_, _, _, rfl⟩, by decide +kernel, fun h => ?_⟩
  have hlen := (h.undisturbed [.ofBytes [0x99]] rfl 1).bufferLen
  have hthree : (halfReceived.afterRequest (.dnload 3 1)
      [.ofBytes [0x99]]).core.dfu.bufferLen = 3 := by decide +kernel
  have htwo : halfReceived.core.dfu.bufferLen = 2 := by decide +kernel
  rw [htwo] at hlen
  exact absurd (hthree.symm.trans hlen) (by decide)

end Machine

end NovaBootloader
