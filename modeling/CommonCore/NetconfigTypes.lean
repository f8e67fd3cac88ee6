import CommonCore.Variant

/-!
# Network configuration

The data types of the netconfig service, and their symbols.
-/

namespace CommonCore.Netconfig

/-! ## Enumerations -/

inductive IPConfigMethod
  | methodNone | methodDisabled | methodAuto | methodDhcp | methodManual | methodLinkLocal
  deriving DecidableEq

inductive WirelessBandSelection
  | bandAny | bandA | bandBg
  deriving DecidableEq

inductive KeyManagement
  | keyEmpty | keyWep | keyIeee8021x | keyPsk | keySae | keyOwe | keyEap
  deriving DecidableEq

inductive AuthenticationAlgorithm
  | authAlgNone | authAlgWepOpen | authAlgWepShared | authAlgLeap
  deriving DecidableEq

inductive EAPType
  | eapNone | eapMd5 | eapTls | eapTtls | eapFast | eapLeap | eapPeap | eapPwd
  deriving DecidableEq

inductive EAPPhase2
  | phase2None | phase2Md5 | phase2Gtc | phase2Pap | phase2Chap | phase2Mschap | phase2MSCHAPv2
  | phase2MSCHAPv2NoEap
  deriving DecidableEq

inductive FASTProvisioning
  | provisioningNone | provisioningDisabled | provisioningAnonymous | provisioningAuthenticated | provisioningAny
  deriving DecidableEq

inductive AuthenticationType
  | authTypeNone | authTypeWep | authTypeWpa | authTypeEap | authTypeUnknown
  deriving DecidableEq

inductive ConnectionType
  | connTypeUnknown | connTypeWired | connTypeWireless
  deriving DecidableEq

/-- An enumeration of NetworkManager, by its numbers. -/
abbrev NMEnum := Int

/-- `static_cast` to a number and from one. -/
class Enumeration (α : Type) where
  number : α → Int
  cast : Int → α
  cast_number : ∀ a, cast (number a) = a

instance : Enumeration NMEnum := ⟨id, id, fun _ => rfl⟩

/-- The enumerator of a list that has a number. -/
def castFrom {α : Type} (number : α → Int) (first : α) (enumerators : List α) (n : Int) : α :=
  (enumerators.find? fun a => number a = n).getD first

instance : Enumeration IPConfigMethod where
  number m := m.ctorIdx
  cast := castFrom (fun m => m.ctorIdx) .methodNone
    [.methodDisabled, .methodAuto, .methodDhcp, .methodManual, .methodLinkLocal]
  cast_number m := by cases m <;> rfl

instance : Enumeration WirelessBandSelection where
  number b := b.ctorIdx
  cast := castFrom (fun b => b.ctorIdx) .bandAny [.bandA, .bandBg]
  cast_number b := by cases b <;> rfl

instance : Enumeration KeyManagement where
  number k := k.ctorIdx
  cast := castFrom (fun k => k.ctorIdx) .keyEmpty [.keyWep, .keyIeee8021x, .keyPsk, .keySae, .keyOwe, .keyEap]
  cast_number k := by cases k <;> rfl

instance : Enumeration AuthenticationAlgorithm where
  number a := a.ctorIdx
  cast := castFrom (fun a => a.ctorIdx) .authAlgNone [.authAlgWepOpen, .authAlgWepShared, .authAlgLeap]
  cast_number a := by cases a <;> rfl

instance : Enumeration EAPType where
  number t := t.ctorIdx
  cast := castFrom (fun t => t.ctorIdx) .eapNone
    [.eapMd5, .eapTls, .eapTtls, .eapFast, .eapLeap, .eapPeap, .eapPwd]
  cast_number t := by cases t <;> rfl

instance : Enumeration EAPPhase2 where
  number p := p.ctorIdx
  cast := castFrom (fun p => p.ctorIdx) .phase2None
    [.phase2Md5, .phase2Gtc, .phase2Pap, .phase2Chap, .phase2Mschap, .phase2MSCHAPv2, .phase2MSCHAPv2NoEap]
  cast_number p := by cases p <;> rfl

def FASTProvisioning.number : FASTProvisioning → Int
  | .provisioningNone => 0
  | .provisioningDisabled => 4
  | .provisioningAnonymous => 5
  | .provisioningAuthenticated => 6
  | .provisioningAny => 7

instance : Enumeration FASTProvisioning where
  number := FASTProvisioning.number
  cast := castFrom FASTProvisioning.number .provisioningNone
    [.provisioningDisabled, .provisioningAnonymous, .provisioningAuthenticated, .provisioningAny]
  cast_number p := by cases p <;> rfl

def AuthenticationType.number : AuthenticationType → Int
  | .authTypeNone => 0
  | .authTypeWep => 1
  | .authTypeWpa => 2
  | .authTypeEap => 3
  | .authTypeUnknown => 15

instance : Enumeration ConnectionType where
  number t := t.ctorIdx
  cast := castFrom (fun t => t.ctorIdx) .connTypeUnknown [.connTypeWired, .connTypeWireless]
  cast_number t := by cases t <;> rfl

/-! ## Connections -/

structure AddressData where
  address : Bytes
  prefixlength : UInt32

structure IPConfigData where
  method : IPConfigMethod := .methodNone
  addressData : List AddressData := []
  gateway : Bytes := []
  dns : List Bytes := []
  searches : List Bytes := []

structure WiredConnectionData where
  autoNegotiate : Bool

def wepKeyCount : ℕ := 4

/-- `NM_WEP_KEY_TYPE_UNKNOWN` and `NM_WEP_KEY_TYPE_KEY` -/
def nmWepKeyTypeUnknown : NMEnum := 0

def nmWepKeyTypeKey : NMEnum := 1

structure WEPData where
  authAlg : AuthenticationAlgorithm := .authAlgNone
  keys : List Bytes := [[], [], [], []]
  keyIdx : UInt32 := 0
  keyType : NMEnum := nmWepKeyTypeKey

structure WPAData where
  psk : Bytes := []

/-- Paths are texts. -/
structure EAPData where
  authAlg : AuthenticationAlgorithm := .authAlgNone
  eapType : EAPType := .eapNone
  eapPhase2 : EAPPhase2 := .phase2None
  anonymousIdentity : Bytes := []
  domain : Bytes := []
  identity : Bytes := []
  password : Bytes := []
  caCert : Bytes := []
  caCertPassword : Bytes := []
  clientCert : Bytes := []
  clientCertKey : Bytes := []
  clientCertPassword : Bytes := []
  pacFile : Bytes := []
  fastProvisioning : FASTProvisioning := .provisioningNone

inductive AuthenticationData
  | monostate
  | wep (data : WEPData)
  | wpa (data : WPAData)
  | eap (data : EAPData)

/-- `NM_802_11_MODE_UNKNOWN` -/
def nm80211ModeUnknown : NMEnum := 0

structure WirelessConnectionData where
  ssid : Bytes := []
  mode : NMEnum := nm80211ModeUnknown
  hidden : Bool := false
  txPower : UInt32 := 0
  keyMgmt : KeyManagement := .keyEmpty
  authProtos : UInt32 := 0
  auth : AuthenticationData := .monostate
  band : Option WirelessBandSelection := none

namespace WirelessConnectionData

def authType (w : WirelessConnectionData) : AuthenticationType :=
  match w.auth with
  | .monostate => .authTypeNone
  | .wep _ => .authTypeWep
  | .wpa _ => .authTypeWpa
  | .eap _ => .authTypeEap

def keyMgmtType (w : WirelessConnectionData) : KeyManagement :=
  if w.keyMgmt = .keyEmpty then
    match w.authType with
    | .authTypeWep => .keyWep
    | .authTypeWpa => .keyPsk
    | .authTypeEap => .keyEap
    | _ => .keyEmpty
  else w.keyMgmt

end WirelessConnectionData

inductive ConnectionSpecificData
  | monostate
  | wired (data : WiredConnectionData)
  | wireless (data : WirelessConnectionData)

structure ConnectionData where
  id : Bytes := []
  uuid : Bytes := []
  interface : Bytes := []
  specificData : ConnectionSpecificData := .monostate
  ip4config : IPConfigData := {}
  ip6config : IPConfigData := {}

namespace ConnectionData

def type (c : ConnectionData) : ConnectionType :=
  match c.specificData with
  | .monostate => .connTypeUnknown
  | .wired _ => .connTypeWired
  | .wireless _ => .connTypeWireless

def isValid (c : ConnectionData) : Bool :=
  c.type ≠ .connTypeUnknown ∧ c.ip4config.method ≠ .methodNone ∧ c.ip6config.method ≠ .methodNone

/-- The same connection with the key management that is in effect. -/
def withKeyMgmtType (c : ConnectionData) : ConnectionData :=
  match c.specificData with
  | .wireless w => { c with specificData := .wireless { w with keyMgmt := w.keyMgmtType } }
  | _ => c

end ConnectionData

structure ActiveConnectionData where
  uuid : Bytes := []
  id : Bytes := []
  type : ConnectionType := .connTypeUnknown
  state : NMEnum := 0
  stateReason : NMEnum := 0
  stateFlags : UInt32 := 0
  default4 : Bool := false
  ip4config : IPConfigData := {}
  default6 : Bool := false
  ip6config : IPConfigData := {}
  vpn : Bool := false

/-! ## Access points -/

def nm80211ApFlagsPrivacy : UInt32 := 0x1

def nm80211ApSecKeyMgmtPsk : UInt32 := 0x100

def nm80211ApSecKeyMgmt8021x : UInt32 := 0x200

def nm80211ApSecKeyMgmtSae : UInt32 := 0x400

structure AccessPointData where
  ssid : Bytes := []
  frequency : UInt32 := 0
  flags : UInt32 := 0
  rsnFlags : UInt32 := 0
  wpaFlags : UInt32 := 0
  hwAddress : Bytes := []
  mode : NMEnum := nm80211ModeUnknown
  maxbitrate : UInt32 := 0
  strength : UInt8 := 0
  lastSeen : Int := 0

namespace AccessPointData

def authFlags (ap : AccessPointData) : UInt32 := if ap.rsnFlags ≠ 0 then ap.rsnFlags else ap.wpaFlags

def authType (ap : AccessPointData) : AuthenticationType :=
  if ap.authFlags ≠ 0 then
    if ap.authFlags &&& nm80211ApSecKeyMgmt8021x ≠ 0 then .authTypeEap
    else if ap.authFlags &&& (nm80211ApSecKeyMgmtPsk ||| nm80211ApSecKeyMgmtSae) ≠ 0 then .authTypeWpa
    else .authTypeUnknown
  else if ap.flags &&& nm80211ApFlagsPrivacy ≠ 0 then .authTypeWep
  else .authTypeNone

end AccessPointData

/-! ## Devices -/

structure WiredDeviceData where
  speed : UInt32 := 0

structure WirelessDeviceData where
  mode : NMEnum := nm80211ModeUnknown
  bitrate : UInt32 := 0
  activeAccesspoint : Bytes := []
  lastScan : Int := 0

inductive DeviceSpecificData
  | monostate
  | wired (data : WiredDeviceData)
  | wireless (data : WirelessDeviceData)

structure DeviceData where
  type : NMEnum := 0
  state : NMEnum := 0
  stateReason : NMEnum := 0
  flags : UInt32 := 0
  interface : Bytes := []
  hwAddress : Bytes := []
  ip4config : IPConfigData := {}
  ip6config : IPConfigData := {}
  ip4connectivity : NMEnum := 0
  ip6connectivity : NMEnum := 0
  activeConnection : Bytes := []
  specificData : DeviceSpecificData := .monostate

structure GlobalData where
  state : NMEnum := 0
  connectivity : NMEnum := 0
  wirelessHardwareEnabled : Bool := false
  wirelessEnabled : Bool := false
  wirelessAllowed : Bool := true
  wirelessBandSelection : WirelessBandSelection := .bandAny

end CommonCore.Netconfig
