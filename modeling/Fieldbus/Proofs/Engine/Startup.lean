import Fieldbus.Proofs.Config.Loading
import Fieldbus.Proofs.Engine.Reload

/-!
# Starting loaded channels

Loading checks a channel's numbers and its plan, and asks of a serial line a device and a rate.
The format of its characters is checked when its link is made.  So a loaded channel can be started
exactly if its medium is supported, and a reload to loaded channels rejects those with a format
that serial lines do not have and no others (`loaded_startup`).

`nineBits_accepted` is such an entry: it is loaded without a defect, and its channel has no link.
-/

namespace Fieldbus

open Config (load)
open Yaml (Value)

/-- A serial line sends characters of five to eight bits with one or two stop bits. -/
def Medium.IsSupported : Medium → Prop
  | .tcp .. => True
  | .rtu _ _ dataBits stopBits _ => (5 ≤ dataBits ∧ dataBits ≤ 8) ∧ 1 ≤ stopBits ∧ stopBits ≤ 2

/-- What is wrong with the characters of a serial line.  The data bits come first. -/
inductive Medium.Unsupported : Medium → SetupFault → Prop
  | dataBits {device : String} {baud : UInt32} {bits stopBits : UInt8} {parity : Parity} :
      ¬ (5 ≤ bits ∧ bits ≤ 8) → Unsupported (.rtu device baud bits stopBits parity) (.dataBits bits)
  | stopBits {device : String} {baud : UInt32} {dataBits bits : UInt8} {parity : Parity} :
      5 ≤ dataBits ∧ dataBits ≤ 8 → ¬ (1 ≤ bits ∧ bits ≤ 2) →
      Unsupported (.rtu device baud dataBits bits parity) (.stopBits bits)

theorem Medium.Unsupported.not_isSupported {m : Medium} {cause : SetupFault}
    (h : m.Unsupported cause) : ¬ m.IsSupported := by
  cases h with
  | dataBits outside => exact fun supported => outside supported.1
  | stopBits _ outside => exact fun supported => outside supported.2

theorem Medium.Unsupported.unique {m : Medium} {cause cause' : SetupFault}
    (h : m.Unsupported cause) (h' : m.Unsupported cause') : cause = cause' := by
  cases h with
  | dataBits outside =>
    cases h' with
    | dataBits _ => rfl
    | stopBits inside _ => exact absurd inside outside
  | stopBits inside _ =>
    cases h' with
    | dataBits outside => exact absurd inside outside
    | stopBits _ _ => rfl

/-- A channel has a link, unless the characters of its line are not supported. -/
theorem ChannelLink.ofChannel_cases (c : Channel) :
    (c.medium.IsSupported ∧ ∃ made, ChannelLink.ofChannel c = .ok made) ∨
      ∃ cause, c.medium.Unsupported cause ∧
        ChannelLink.ofChannel c = .error (.configuration cause) := by
  cases medium : c.medium with
  | tcp host port => exact .inl ⟨trivial, by simp [ChannelLink.ofChannel, medium]⟩
  | rtu device baud dataBits stopBits parity =>
    have range (x lo hi : UInt8) : (x < lo ∨ hi < x) ↔ ¬ (lo ≤ x ∧ x ≤ hi) := by
      rw [← UInt8.not_lt, ← UInt8.not_lt, ← not_or, not_not]
    simp only [ChannelLink.ofChannel, SerialSettings.forChannel, medium, range]
    by_cases data : 5 ≤ dataBits ∧ dataBits ≤ 8
    · by_cases stop : 1 ≤ stopBits ∧ stopBits ≤ 2
      · exact .inl ⟨⟨data, stop⟩, by simp [data, stop, Except.map]⟩
      · exact .inr ⟨_, .stopBits data stop, by simp [data, stop, Except.map]⟩
    · exact .inr ⟨_, .dataBits data, by simp [data, Except.map]⟩

theorem Channel.Checked.canRun_iff {c : Channel} (h : c.Checked) :
    c.CanRun ↔ c.medium.IsSupported := by
  rcases ChannelLink.ofChannel_cases c with ⟨supported, linked⟩ | ⟨cause, wrong, failed⟩
  · exact ⟨fun _ => supported, fun _ => ⟨h.planned, linked⟩⟩
  · simp [Channel.CanRun, failed, wrong.not_isSupported]

theorem Channel.Checked.setupDefect?_iff {c : Channel} (h : c.Checked) {defect : Defect} :
    c.setupDefect? = some defect ↔
      ∃ cause, c.medium.Unsupported cause ∧
        defect = .channel c.id (.link (.configuration cause)) := by
  obtain ⟨plan, planned⟩ := h.planned
  rcases ChannelLink.ofChannel_cases c with ⟨supported, linked⟩ | ⟨cause, wrong, failed⟩
  · rw [Channel.setupDefect?_of_canRun ⟨h.planned, linked⟩]
    constructor
    · rintro ⟨⟩
    · rintro ⟨cause, wrong, -⟩
      exact absurd supported wrong.not_isSupported
  · rw [Channel.setupDefect?_of_unlinked planned failed, Option.some.injEq]
    constructor
    · rintro rfl
      exact ⟨cause, wrong, rfl⟩
    · rintro ⟨cause', wrong', rfl⟩
      rw [wrong.unique wrong']

/-- The channels of a document can be started but for serial lines with characters that are not
supported, in whatever way its entries are read.  A reload to them runs the others and rejects
these, and nothing else. -/
theorem loaded_startup {α : Type} {r : Config.Reader α} {entries : List α}
    {loaded : Config.Loaded} (loads : load r entries = .ok loaded) {l : Ledger}
    {roster roster' : Roster} {events : List Event} {report : ReloadReport}
    (before : Reloaded l roster)
    (run : (roster.reload loaded.channels).Performs events (.done (roster', report)))
    (fresh : (l.afterAll events).started.Nodup) :
    (∀ c ∈ loaded.channels,
        (∃ made, ChannelLink.ofChannel c = .ok made) ↔ c.medium.IsSupported) ∧
      (∀ id, (roster'.get? id).isSome = true ↔
        ∃ c ∈ loaded.channels, c.id = id ∧ c.medium.IsSupported) ∧
      ∀ defect, defect ∈ report.rejected ↔
        ∃ c ∈ loaded.channels, ∃ cause, c.medium.Unsupported cause ∧
          defect = .channel c.id (.link (.configuration cause)) := by
  obtain ⟨inStep, keys⟩ := before.inStep
  obtain ⟨distinct, checked⟩ := Config.load_checked loads
  refine ⟨fun c member => ?_, fun id => ?_, fun defect => ?_⟩
  · rw [← (checked c member).canRun_iff]
    exact ⟨fun linked => ⟨(checked c member).planned, linked⟩, fun can => can.2⟩
  · rw [reload_running_iff run inStep keys fresh distinct id]
    refine exists_congr fun c => and_congr_right fun member => ?_
    rw [(checked c member).canRun_iff]
  · rw [reload_rejected run inStep keys fresh distinct, List.mem_filterMap]
    refine exists_congr fun c => and_congr_right fun member => ?_
    exact (checked c member).setupDefect?_iff

/-! ## Nine data bits -/

/-- A serial line with a number of data bits. -/
def lineEntry (id dataBits : Int) : Value :=
  .table [(.string "id", .int id), (.string "name", .string "line"),
    (.string "transport", .table [(.string "kind", .string "rtu"),
      (.string "device", .string "/dev/ttyS0"), (.string "data_bits", .int dataBits)])]

def lineEntries : List Value := [lineEntry 1 8, lineEntry 2 9]

/-- The channels of some lines, if they are loaded. -/
def lines (entries : List Value) : Config.Loaded := (load .yaml entries).toOption.getD {}

theorem load_lines {entries : List Value}
    (fits : (load .yaml entries).toOption.isSome = true) :
    load .yaml entries = .ok (lines entries) := by
  rw [lines]
  cases loads : load .yaml entries with
  | error _ =>
    rw [loads] at fits
    cases fits
  | ok loaded => rfl

def lineReload : List Event × Roster × ReloadReport :=
  (Roster.reload {} (lines lineEntries).channels).trace (linksFrom 0)

/-- Both lines are loaded.  The first runs, and the second is rejected for its nine bits. -/
theorem lines_startup :
    load .yaml lineEntries = .ok (lines lineEntries) ∧ ∃ roster report,
      (Roster.reload {} (lines lineEntries).channels).Performs lineReload.1
          (.done (roster, report)) ∧
        (({} : Ledger).afterAll lineReload.1).started.Nodup ∧
        (lines lineEntries).channels.map Channel.id = [1, 2] ∧ report.started = [1] ∧
        ((roster.get? 2).isSome = true ↔
          ∃ c ∈ (lines lineEntries).channels, c.id = 2 ∧ c.medium.IsSupported) ∧
        ∃ c ∈ (lines lineEntries).channels, ∃ cause, c.medium.Unsupported cause ∧
          Defect.channel 2 (.link (.configuration (.dataBits 9))) =
            .channel c.id (.link (.configuration cause)) := by
  have loads : load .yaml lineEntries = .ok (lines lineEntries) :=
    load_lines (by decide +kernel)
  have run : (Roster.reload {} (lines lineEntries).channels).Performs lineReload.1
      (.done lineReload.2) := Activity.performs_trace ..
  have fresh : (({} : Ledger).afterAll lineReload.1).started.Nodup := by decide +kernel
  have rejected : .channel 2 (.link (.configuration (.dataBits 9))) ∈ lineReload.2.2.rejected := by
    decide +kernel
  obtain ⟨-, running, rejects⟩ := loaded_startup loads .start run fresh
  exact ⟨loads, _, _, run, fresh, by decide +kernel, by decide +kernel, running 2,
    (rejects _).mp rejected⟩

/-- The second line is loaded without a defect, and there is no link for it. -/
theorem nineBits_accepted :
    load .yaml [lineEntry 2 9] = .ok (lines [lineEntry 2 9]) ∧
      (lines [lineEntry 2 9]).rejected = [] ∧
      ∃ c ∈ (lines [lineEntry 2 9]).channels,
        ChannelLink.ofChannel c = .error (.configuration (.dataBits 9)) := by
  have loads : load .yaml [lineEntry 2 9] = .ok (lines [lineEntry 2 9]) :=
    load_lines (by decide +kernel)
  have accepted : (lines [lineEntry 2 9]).rejected = [] := by decide +kernel
  have unlinked : ((lines [lineEntry 2 9]).channels.any fun c =>
      c.medium = .rtu "/dev/ttyS0" 9600 9 1 .none) = true := by
    decide +kernel
  obtain ⟨c, member, medium⟩ := List.any_eq_true.mp unlinked
  refine ⟨loads, accepted, c, member, ?_⟩
  simp [ChannelLink.ofChannel, SerialSettings.forChannel, of_decide_eq_true medium, Except.map]

end Fieldbus
