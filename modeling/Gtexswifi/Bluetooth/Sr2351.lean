import Gtexswifi.Bluetooth.Marlin

/-! The pskey structure of the sr2351 adapter and its table. -/
namespace Bluetooth.Sr2351

open Conf Numerals Marlin

/-- A member of `pskey_config_t`: an array of `count` elements, or one
element. -/
structure Member where
  width : Width
  name : String
  count : Nat
  deriving DecidableEq

def pskeyConfig : List Member :=
  [⟨.uint8, "pskey_cmd", 1⟩, ⟨.uint8, "g_dbg_source_sink_syn_test_data", 1⟩,
    ⟨.uint8, "g_sys_sleep_in_standby_supported", 1⟩,
    ⟨.uint8, "g_sys_sleep_master_supported", 1⟩, ⟨.uint8, "g_sys_sleep_slave_supported", 1⟩,
    ⟨.uint32, "default_ahb_clk", 1⟩, ⟨.uint32, "device_class", 1⟩, ⟨.uint32, "win_ext", 1⟩,
    ⟨.uint32, "g_aGainValue", 6⟩, ⟨.uint32, "g_aPowerValue", 5⟩, ⟨.uint8, "feature_set", 16⟩,
    ⟨.uint8, "device_addr", 6⟩, ⟨.uint8, "g_sys_sco_transmit_mode", 1⟩,
    ⟨.uint8, "g_sys_uart0_communication_supported", 1⟩, ⟨.uint8, "edr_tx_edr_delay", 1⟩,
    ⟨.uint8, "edr_rx_edr_delay", 1⟩, ⟨.uint32, "g_PrintLevel", 1⟩,
    ⟨.uint16, "uart_rx_watermark", 1⟩, ⟨.uint16, "uart_flow_control_thld", 1⟩,
    ⟨.uint32, "comp_id", 1⟩, ⟨.uint16, "pcm_clk_divd", 1⟩, ⟨.uint16, "half_word_reserved", 1⟩,
    ⟨.uint32, "pcm_config", 1⟩, ⟨.uint8, "ref_clk", 1⟩, ⟨.uint8, "FEM_status", 1⟩,
    ⟨.uint8, "gpio_cfg", 1⟩, ⟨.uint8, "gpio_PA_en", 1⟩, ⟨.uint8, "wifi_tx", 1⟩,
    ⟨.uint8, "bt_tx", 1⟩, ⟨.uint8, "wifi_rx", 1⟩, ⟨.uint8, "bt_rx", 1⟩,
    ⟨.uint8, "wb_lna_bypass", 1⟩, ⟨.uint8, "gain_LNA", 1⟩, ⟨.uint8, "IL_wb_lna_bypass", 1⟩,
    ⟨.uint8, "Rx_adaptive", 1⟩, ⟨.uint16, "up_bypass_switching_point0", 1⟩,
    ⟨.uint16, "low_bypass_switching_point0", 1⟩, ⟨.uint32, "bt_reserved", 4⟩]

/-- Where a member is, from `start` on: each at a multiple of the size of
its type. -/
def offsetFrom (name : String) : Nat → List Member → Nat
  | start, [] => start
  | start, member :: members =>
      let aligned := (start + member.width.size - 1) / member.width.size * member.width.size
      if member.name = name then aligned
      else offsetFrom name (aligned + member.count * member.width.size) members

def offsetOf (name : String) : Nat := offsetFrom name 0 pskeyConfig

/-- `sizeof` of a member. -/
def sizeOfMember (name : String) : Nat :=
  ((pskeyConfig.find? fun member => member.name = name).map fun member =>
    member.count * member.width.size).getD 0

/-- `CONF_ITEM_TABLE`. -/
def confItemTable (name : String) (len : Nat) : ConfEntry :=
  ⟨some (ascii name), offsetOf name, len, sizeOfMember name / len⟩

/-- The rows in front of the last one. -/
def rows : List ConfEntry :=
  [confItemTable "pskey_cmd" 1, confItemTable "g_dbg_source_sink_syn_test_data" 1,
    confItemTable "g_sys_sleep_in_standby_supported" 1,
    confItemTable "g_sys_sleep_master_supported" 1,
    confItemTable "g_sys_sleep_slave_supported" 1, confItemTable "default_ahb_clk" 1,
    confItemTable "device_class" 1, confItemTable "win_ext" 1, confItemTable "g_aGainValue" 6,
    confItemTable "g_aPowerValue" 5, confItemTable "feature_set" 16,
    confItemTable "device_addr" 6, confItemTable "g_sys_sco_transmit_mode" 1,
    confItemTable "g_sys_uart0_communication_supported" 1, confItemTable "edr_tx_edr_delay" 1,
    confItemTable "edr_rx_edr_delay" 1, confItemTable "g_PrintLevel" 1,
    confItemTable "uart_rx_watermark" 1, confItemTable "uart_flow_control_thld" 1,
    confItemTable "comp_id" 1, confItemTable "pcm_clk_divd" 1,
    confItemTable "half_word_reserved" 1, confItemTable "pcm_config" 1,
    confItemTable "ref_clk" 1, confItemTable "FEM_status" 1, confItemTable "gpio_cfg" 1,
    confItemTable "gpio_PA_en" 1, confItemTable "wifi_tx" 1, confItemTable "bt_tx" 1,
    confItemTable "wifi_rx" 1, confItemTable "bt_rx" 1, confItemTable "wb_lna_bypass" 1,
    confItemTable "gain_LNA" 1, confItemTable "IL_wb_lna_bypass" 1,
    confItemTable "Rx_adaptive" 1, confItemTable "up_bypass_switching_point0" 1,
    confItemTable "low_bypass_switching_point0" 1, confItemTable "bt_reserved" 4]

def sr2351Table : List ConfEntry := rows ++ [⟨none, 0, 0, 0⟩]

def adapter : Adapter := ⟨sr2351Table, offsetOf "device_addr", offsetOf "feature_set"⟩

end Bluetooth.Sr2351

namespace Bluetooth

open Conf

/-- The adapters of the chips. -/
inductive AdapterModule
  | marlin
  | marlin2
  | sr2351
  deriving DecidableEq, Repr

namespace AdapterModule

def adapter : AdapterModule → Adapter
  | marlin => Marlin.Chip.marlin.adapter
  | marlin2 => Marlin.Chip.marlin2.adapter
  | sr2351 => Sr2351.adapter

/-- What holds of every row: it takes elements of a size that `parse_number`
writes, or none. -/
def TakesValues (entry : ConfEntry) : Prop :=
  (0 < entry.len ∧ (entry.size = 1 ∨ entry.size = 2 ∨ entry.size = 4)) ∨ entry.size = 0

instance (entry : ConfEntry) : Decidable (TakesValues entry) := inferInstanceAs (Decidable (_ ∨ _))

/-- Each row of each table has elements of one, two or four bytes, or none. -/
theorem takesValues (m : AdapterModule) : ∀ entry ∈ m.adapter.tab, TakesValues entry := by
  cases m <;> decide +kernel

end AdapterModule

end Bluetooth
