import Gtexswifi.Bluetooth.Conf

/-! The pskey structure of the marlin and the marlin2 adapter, their tables,
and the command that carries the structure to the chip. The two adapters
have the same structure, rows and stores; each statement below stands in
both files. -/
namespace Bluetooth.Marlin

open Conf Numerals

/-- The members of `pskey_config_t`. -/
inductive Item
  | pskeyCmd
  | gDbgSourceSinkSynTestData
  | gSysSleepInStandbySupported
  | gSysSleepMasterSupported
  | gSysSleepSlaveSupported
  | defaultAhbClk
  | deviceClass
  | winExt
  | gAGainValue
  | gAPowerValue
  | featureSet
  | deviceAddr
  | gSysScoTransmitMode
  | gSysUart0CommunicationSupported
  | edrTxEdrDelay
  | edrRxEdrDelay
  | gWbsNv117
  | isWdgSupported
  | shareMemoRxBaseAddr
  | gWbsNv118
  | gNbvNv117
  | shareMemoTxPacketNumAddr
  | shareMemoTxDataBaseAddr
  | gPrintLevel
  | shareMemoTxBlockLength
  | shareMemoRxBlockLength
  | shareMemoTxWaterMark
  | gNbvNv118
  | uartRxWatermark
  | uartFlowControlThld
  | compId
  | pcmClkDivd
  | brEdrDiffReserved
  | gABRChannelpwrvalue
  | gAEDRChannelpwrvalue
  | gALEPowerControlFlag
  | gALEChannelpwrvalue
  deriving DecidableEq

def Item.name : Item → String
  | pskeyCmd => "pskey_cmd"
  | gDbgSourceSinkSynTestData => "g_dbg_source_sink_syn_test_data"
  | gSysSleepInStandbySupported => "g_sys_sleep_in_standby_supported"
  | gSysSleepMasterSupported => "g_sys_sleep_master_supported"
  | gSysSleepSlaveSupported => "g_sys_sleep_slave_supported"
  | defaultAhbClk => "default_ahb_clk"
  | deviceClass => "device_class"
  | winExt => "win_ext"
  | gAGainValue => "g_aGainValue"
  | gAPowerValue => "g_aPowerValue"
  | featureSet => "feature_set"
  | deviceAddr => "device_addr"
  | gSysScoTransmitMode => "g_sys_sco_transmit_mode"
  | gSysUart0CommunicationSupported => "g_sys_uart0_communication_supported"
  | edrTxEdrDelay => "edr_tx_edr_delay"
  | edrRxEdrDelay => "edr_rx_edr_delay"
  | gWbsNv117 => "g_wbs_nv_117"
  | isWdgSupported => "is_wdg_supported"
  | shareMemoRxBaseAddr => "share_memo_rx_base_addr"
  | gWbsNv118 => "g_wbs_nv_118"
  | gNbvNv117 => "g_nbv_nv_117"
  | shareMemoTxPacketNumAddr => "share_memo_tx_packet_num_addr"
  | shareMemoTxDataBaseAddr => "share_memo_tx_data_base_addr"
  | gPrintLevel => "g_PrintLevel"
  | shareMemoTxBlockLength => "share_memo_tx_block_length"
  | shareMemoRxBlockLength => "share_memo_rx_block_length"
  | shareMemoTxWaterMark => "share_memo_tx_water_mark"
  | gNbvNv118 => "g_nbv_nv_118"
  | uartRxWatermark => "uart_rx_watermark"
  | uartFlowControlThld => "uart_flow_control_thld"
  | compId => "comp_id"
  | pcmClkDivd => "pcm_clk_divd"
  | brEdrDiffReserved => "br_edr_diff_reserved"
  | gABRChannelpwrvalue => "g_aBRChannelpwrvalue"
  | gAEDRChannelpwrvalue => "g_aEDRChannelpwrvalue"
  | gALEPowerControlFlag => "g_aLEPowerControlFlag"
  | gALEChannelpwrvalue => "g_aLEChannelpwrvalue"

/-- The types of the members. -/
inductive Width
  | uint8
  | uint16
  | uint32
  deriving DecidableEq

def Width.size : Width → Nat
  | uint8 => 1
  | uint16 => 2
  | uint32 => 4

/-- A member that is an array of `count` elements, or one element, and
likewise a statement that puts a member into the stream, or the loop around
it. -/
structure Field where
  width : Width
  item : Item
  count : Nat
  deriving DecidableEq

def pskeyConfig : List Field :=
  [⟨.uint32, .pskeyCmd, 1⟩, ⟨.uint8, .gDbgSourceSinkSynTestData, 1⟩,
    ⟨.uint8, .gSysSleepInStandbySupported, 1⟩, ⟨.uint8, .gSysSleepMasterSupported, 1⟩,
    ⟨.uint8, .gSysSleepSlaveSupported, 1⟩, ⟨.uint32, .defaultAhbClk, 1⟩,
    ⟨.uint32, .deviceClass, 1⟩, ⟨.uint32, .winExt, 1⟩, ⟨.uint32, .gAGainValue, 6⟩,
    ⟨.uint32, .gAPowerValue, 5⟩, ⟨.uint8, .featureSet, 16⟩, ⟨.uint8, .deviceAddr, 6⟩,
    ⟨.uint8, .gSysScoTransmitMode, 1⟩, ⟨.uint8, .gSysUart0CommunicationSupported, 1⟩,
    ⟨.uint8, .edrTxEdrDelay, 1⟩, ⟨.uint8, .edrRxEdrDelay, 1⟩, ⟨.uint16, .gWbsNv117, 1⟩,
    ⟨.uint32, .isWdgSupported, 1⟩, ⟨.uint32, .shareMemoRxBaseAddr, 1⟩, ⟨.uint16, .gWbsNv118, 1⟩,
    ⟨.uint16, .gNbvNv117, 1⟩, ⟨.uint32, .shareMemoTxPacketNumAddr, 1⟩,
    ⟨.uint32, .shareMemoTxDataBaseAddr, 1⟩, ⟨.uint32, .gPrintLevel, 1⟩,
    ⟨.uint16, .shareMemoTxBlockLength, 1⟩, ⟨.uint16, .shareMemoRxBlockLength, 1⟩,
    ⟨.uint16, .shareMemoTxWaterMark, 1⟩, ⟨.uint16, .gNbvNv118, 1⟩, ⟨.uint16, .uartRxWatermark, 1⟩,
    ⟨.uint16, .uartFlowControlThld, 1⟩, ⟨.uint32, .compId, 1⟩, ⟨.uint16, .pcmClkDivd, 1⟩,
    ⟨.uint16, .brEdrDiffReserved, 1⟩, ⟨.uint32, .gABRChannelpwrvalue, 8⟩,
    ⟨.uint32, .gAEDRChannelpwrvalue, 8⟩, ⟨.uint32, .gALEPowerControlFlag, 1⟩,
    ⟨.uint16, .gALEChannelpwrvalue, 8⟩]

/-- Where a member is, from `start` on: each at a multiple of the size of
its type. -/
def offsetFrom (item : Item) : Nat → List Field → Nat
  | start, [] => start
  | start, member :: members =>
      let aligned := (start + member.width.size - 1) / member.width.size * member.width.size
      if member.item = item then aligned
      else offsetFrom item (aligned + member.count * member.width.size) members

def offsetOf (item : Item) : Nat := offsetFrom item 0 pskeyConfig

/-- The size of an element. -/
def elementSize (item : Item) : Nat :=
  ((pskeyConfig.find? fun member => member.item = item).map fun member => member.width.size).getD 0

/-- `sizeof` of a member. -/
def sizeOfItem (item : Item) : Nat :=
  ((pskeyConfig.find? fun member => member.item = item).map fun member =>
    member.count * member.width.size).getD 0

/-- `CONF_ITEM_TABLE`. -/
def confItemTable (item : Item) (len : Nat) : ConfEntry :=
  ⟨some (ascii item.name), offsetOf item, len, sizeOfItem item / len⟩

/-- The rows behind the first one. -/
def rows : List ConfEntry :=
  [confItemTable .gDbgSourceSinkSynTestData 1, confItemTable .gSysSleepInStandbySupported 1,
    confItemTable .gSysSleepMasterSupported 1, confItemTable .gSysSleepSlaveSupported 1,
    confItemTable .defaultAhbClk 1, confItemTable .deviceClass 1, confItemTable .winExt 1,
    confItemTable .gAGainValue 6, confItemTable .gAPowerValue 5, confItemTable .featureSet 16,
    confItemTable .deviceAddr 6, confItemTable .gSysScoTransmitMode 1,
    confItemTable .gSysUart0CommunicationSupported 1, confItemTable .edrTxEdrDelay 1,
    confItemTable .edrRxEdrDelay 1, confItemTable .gWbsNv117 1, confItemTable .isWdgSupported 1,
    confItemTable .shareMemoRxBaseAddr 1, confItemTable .gWbsNv118 1, confItemTable .gNbvNv117 1,
    confItemTable .shareMemoTxPacketNumAddr 1, confItemTable .shareMemoTxDataBaseAddr 1,
    confItemTable .gPrintLevel 1, confItemTable .shareMemoTxBlockLength 1,
    confItemTable .shareMemoRxBlockLength 1, confItemTable .shareMemoTxWaterMark 1,
    confItemTable .gNbvNv118 1, confItemTable .uartRxWatermark 1,
    confItemTable .uartFlowControlThld 1, confItemTable .compId 1, confItemTable .pcmClkDivd 1,
    confItemTable .brEdrDiffReserved 1, confItemTable .gABRChannelpwrvalue 8,
    confItemTable .gAEDRChannelpwrvalue 8, confItemTable .gALEPowerControlFlag 1,
    confItemTable .gALEChannelpwrvalue 8]

/-- The first row has no buffer. -/
def pskeyCmdRow : ConfEntry := ⟨some (ascii Item.pskeyCmd.name), 0, 0, 0⟩

def marlinTable : List ConfEntry := pskeyCmdRow :: rows

def marlin2Table : List ConfEntry := pskeyCmdRow :: (rows ++ [⟨none, 0, 0, 0⟩])

inductive Chip
  | marlin
  | marlin2
  deriving DecidableEq, Repr

def Chip.adapter : Chip → Adapter
  | marlin => ⟨marlinTable, offsetOf .deviceAddr, offsetOf .featureSet⟩
  | marlin2 => ⟨marlin2Table, offsetOf .deviceAddr, offsetOf .featureSet⟩

/-- `none` if the walk leaves the table. -/
def getPskeySize : List ConfEntry → Option Int
  | [] => none
  | entry :: tab =>
      if entry.confEntry = none then some 0
      else (getPskeySize tab).map (entry.len * entry.size + ·)

def pskeyPreambleSize : UInt8 := 0xd8

def hciPskey : UInt16 := 0xfca0

def hciCmdPreambleSize : Int := 3

/-- `UINT8_TO_STREAM`, `UINT16_TO_STREAM` and `UINT32_TO_STREAM` of the
elements of a member. -/
def put (mem : Nat → UInt8) (field : Field) : List UInt8 :=
  (List.range field.count).flatMap fun i =>
    let value := Radix.value
      (Bytes.fetch mem (offsetOf field.item + i * elementSize field.item) (elementSize field.item))
    Radix.encode field.width.size value

/-- The stores of the preload functions, in their order. -/
def puts : List Field :=
  [⟨.uint8, .gDbgSourceSinkSynTestData, 1⟩, ⟨.uint8, .gSysSleepInStandbySupported, 1⟩,
    ⟨.uint8, .gSysSleepMasterSupported, 1⟩, ⟨.uint8, .gSysSleepSlaveSupported, 1⟩,
    ⟨.uint32, .defaultAhbClk, 1⟩, ⟨.uint32, .deviceClass, 1⟩, ⟨.uint32, .winExt, 1⟩,
    ⟨.uint32, .gAGainValue, 6⟩, ⟨.uint32, .gAPowerValue, 5⟩, ⟨.uint8, .featureSet, 16⟩,
    ⟨.uint8, .deviceAddr, 6⟩, ⟨.uint8, .gSysScoTransmitMode, 1⟩,
    ⟨.uint8, .gSysUart0CommunicationSupported, 1⟩, ⟨.uint8, .edrTxEdrDelay, 1⟩,
    ⟨.uint8, .edrRxEdrDelay, 1⟩, ⟨.uint16, .gWbsNv117, 1⟩, ⟨.uint32, .isWdgSupported, 1⟩,
    ⟨.uint32, .shareMemoRxBaseAddr, 1⟩, ⟨.uint16, .gWbsNv118, 1⟩, ⟨.uint16, .gNbvNv117, 1⟩,
    ⟨.uint32, .shareMemoTxPacketNumAddr, 1⟩, ⟨.uint32, .shareMemoTxDataBaseAddr, 1⟩,
    ⟨.uint32, .gPrintLevel, 1⟩, ⟨.uint16, .shareMemoTxBlockLength, 1⟩,
    ⟨.uint16, .shareMemoRxBlockLength, 1⟩, ⟨.uint16, .shareMemoTxWaterMark, 1⟩,
    ⟨.uint16, .gNbvNv118, 1⟩, ⟨.uint16, .uartRxWatermark, 1⟩, ⟨.uint16, .uartFlowControlThld, 1⟩,
    ⟨.uint32, .compId, 1⟩, ⟨.uint16, .pcmClkDivd, 1⟩, ⟨.uint16, .brEdrDiffReserved, 1⟩,
    ⟨.uint32, .gABRChannelpwrvalue, 8⟩, ⟨.uint32, .gAEDRChannelpwrvalue, 8⟩,
    ⟨.uint32, .gALEPowerControlFlag, 1⟩, ⟨.uint16, .gALEChannelpwrvalue, 8⟩]

/-- The base that `strtoul` takes from the number when it is given zero. -/
def autoBase (text : List UInt8) : Nat :=
  let unsigned := match text.dropWhile isSpace with
    | 0x2d :: rest => rest
    | 0x2b :: rest => rest
    | rest => rest
  match unsigned with
  | 0x30 :: x :: _ => if x = 0x78 ∨ x = 0x58 then 16 else 8
  | 0x30 :: _ => 8
  | _ => 10

def marlin2PskeyReload (longBits : Nat) (device : Device) (mem : Nat → UInt8) : Nat → UInt8 :=
  let value := strtoul longBits (autoBase device.dspLog) device.dspLog % 2 ^ 32
  Bytes.store mem (offsetOf .shareMemoTxPacketNumAddr) (Radix.encode 4 value)

/-- The command in the buffer. -/
structure Command where
  len : Int
  opcode : List UInt8
  parameterLength : UInt8
  parameters : List UInt8
  deriving DecidableEq

/-- What the preload functions share, without the buffer's allocation. They
ask for the size before they put a byte into the buffer, so that nothing is
defined where the walk leaves the table. -/
def pskeyPreload (tab : List ConfEntry) (mem : Nat → UInt8) : Option Command := do
  let size ← getPskeySize tab
  return {
    len := hciCmdPreambleSize + size
    opcode := Radix.encode 2 hciPskey.toNat
    parameterLength := pskeyPreambleSize
    parameters := puts.flatMap (put mem) }

def marlinPskeyPreload (mem : Nat → UInt8) : Option Command := pskeyPreload marlinTable mem

def marlin2PskeyPreload (longBits : Nat) (device : Device) (mem : Nat → UInt8) : Option Command :=
  pskeyPreload marlin2Table (marlin2PskeyReload longBits device mem)

/-- The preload function of an adapter, with a buffer that has been
allocated. -/
def Chip.preload (longBits : Nat) (device : Device) (mem : Nat → UInt8) : Chip → Option Command
  | marlin => marlinPskeyPreload mem
  | marlin2 => marlin2PskeyPreload longBits device mem

end Bluetooth.Marlin
