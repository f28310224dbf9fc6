import BLERCCar.Remote.Control

/-!
# Packets on the air

`common.hpp` documents the payloads as two bytes: a drive mode or a direction,
and a percentage.  What is handed to the BLE library is the C string at
`GetPayload`, whose length is not part of the packet: a zero byte ends it early
and the array `raw` has no terminator of its own.

## Main results

* `payload_of_ne_zero`: without a zero byte the string runs on into the memory
  behind the packet.
* `value_eq_iff`: a sender puts exactly the two documented bytes on the air if
  and only if neither of them is zero and the memory behind happens to start
  with a zero.
-/

namespace BLERCCar

open BLERCCar.Lib.CString

namespace BLERCCarPacket

/-- A zero command byte leaves nothing. -/
theorem payload_of_command_eq_zero {p : BLERCCarPacket} (h : p.command = 0)
    (beyond : List UInt8) : p.payload beyond = [] := by
  simp [payload, getPayload, raw, h]

/-- A zero amount cuts the packet to one byte. -/
theorem payload_of_amount_eq_zero {p : BLERCCarPacket} (hcommand : p.command ≠ 0)
    (hamount : p.amount = 0) (beyond : List UInt8) :
    p.payload beyond = [p.command] := by
  have hcut : cstr (p.command :: 0 :: beyond) = p.command :: cstr (0 :: beyond) :=
    cstr_cons_of_ne hcommand _
  simpa [payload, getPayload, raw, hamount] using hcut

/-- Any other packet takes along what lies behind it. -/
theorem payload_of_ne_zero {p : BLERCCarPacket} (hcommand : p.command ≠ 0)
    (hamount : p.amount ≠ 0) (beyond : List UInt8) :
    p.payload beyond = p.command :: p.amount :: cstr beyond := by
  have hrun : cstr (p.command :: p.amount :: beyond) =
      p.command :: p.amount :: cstr beyond := by
    rw [cstr_cons_of_ne hcommand, cstr_cons_of_ne hamount]
  exact hrun

theorem payload_eq_iff (p : BLERCCarPacket) (beyond : List UInt8) :
    p.payload beyond = [p.command, p.amount] ↔
      p.command ≠ 0 ∧ p.amount ≠ 0 ∧ byteAt beyond 0 = 0 := by
  by_cases hcommand : p.command = 0
  · simp [payload_of_command_eq_zero hcommand, hcommand]
  · by_cases hamount : p.amount = 0
    · simp [payload_of_amount_eq_zero hcommand hamount, hamount]
    · simp [payload_of_ne_zero hcommand hamount, hcommand, hamount,
        cstr_eq_nil_iff]

end BLERCCarPacket

/-! ## Senders -/

namespace Server

/-- `BLEManager::NotifyNewDriveMode`: the value that it sets; `beyond` is the
memory behind the packet. -/
def notifyNewDriveMode (pkt : BLERCCarPacket) (beyond : List UInt8) : List UInt8 :=
  pkt.payload beyond

end Server

namespace Client.Call

/-- The packet that a call builds. -/
def packet : Client.Call → BLERCCarPacket
  | turnLeft percentage => .steerLeft percentage
  | turnRight percentage => .steerRight percentage
  | setDriveMode mode => .drive mode 0
  | setSpeed mode speed => .drive mode speed

theorem write_value (call : Client.Call) (beyond : List UInt8) :
    (call.write beyond).value = call.packet.payload beyond := by
  cases call <;> rfl

end Client.Call

namespace Remote

/-- Everything that hands a packet to the BLE library. -/
inductive Sender where
  | client (call : Client.Call)
  | notifyNewDriveMode (pkt : BLERCCarPacket)
  deriving DecidableEq

namespace Sender

/-- The packet. -/
def packet : Sender → BLERCCarPacket
  | client call => call.packet
  | notifyNewDriveMode pkt => pkt

/-- The value that the BLE library is given. -/
def value (beyond : List UInt8) : Sender → List UInt8
  | client call => (call.write beyond).value
  | notifyNewDriveMode pkt => Server.notifyNewDriveMode pkt beyond

theorem value_eq_payload (sender : Sender) (beyond : List UInt8) :
    sender.value beyond = sender.packet.payload beyond := by
  cases sender with
  | client call => exact call.write_value beyond
  | notifyNewDriveMode pkt => rfl

/--
The value on the air is the two documented bytes exactly if neither of them is
zero and the memory behind the packet starts with a zero.
-/
theorem value_eq_iff (sender : Sender) (beyond : List UInt8) :
    sender.value beyond = [sender.packet.command, sender.packet.amount] ↔
      sender.packet.command ≠ 0 ∧ sender.packet.amount ≠ 0 ∧
        byteAt beyond 0 = 0 := by
  rw [value_eq_payload]
  exact sender.packet.payload_eq_iff beyond

/-- Straightening the wheels sends one byte, and turning them sends what lies
behind the packet. -/
theorem not_value_eq_turnLeft :
    (client (.turnLeft 0)).value [7] ≠ [0x4C, 0] ∧
      (client (.turnLeft 100)).value [7, 9] ≠ [0x4C, 100] := by
  decide

end Sender

end Remote

end BLERCCar
