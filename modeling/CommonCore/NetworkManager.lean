import CommonCore.FromChars
import CommonCore.NetconfigTypes
import CommonCore.VariantProto

/-!
# Network configuration in NetworkManager settings

`insert_settings` builds the settings of a connection, maps of D-Bus variants,
and `extract_settings` reads them. What equals the default of its type is left
out, and what is not there is left as it was.
-/

namespace CommonCore.Netconfig.Dbus

open Enumeration

/-! ## Symbols -/

abbrev SymbolMap (κ : Type) := List (κ × Bytes)

namespace SymbolMap

variable {κ : Type} [DecidableEq κ]

def tryToString (map : SymbolMap κ) (key : κ) : Option Bytes := (map.find? fun e => e.1 = key).map Prod.snd

def tryFromString (map : SymbolMap κ) (symbol : Bytes) : Option κ :=
  (map.find? fun e => e.2.map toLower = symbol.map toLower).map Prod.fst

end SymbolMap

def ipconfigMethodMap : SymbolMap IPConfigMethod :=
  [(.methodDisabled, ascii "disabled"), (.methodAuto, ascii "auto"), (.methodDhcp, ascii "dhcp"),
    (.methodManual, ascii "manual"), (.methodLinkLocal, ascii "link-local")]

def bandSelectionMap : SymbolMap WirelessBandSelection :=
  [(.bandAny, ascii "any"), (.bandA, ascii "a"), (.bandBg, ascii "bg")]

def connectionTypeMap : SymbolMap ConnectionType :=
  [(.connTypeWired, ascii "802-3-ethernet"), (.connTypeWireless, ascii "802-11-wireless")]

def apModeMap : SymbolMap NMEnum :=
  [(1, ascii "adhoc"), (2, ascii "infrastructure"), (3, ascii "ap"), (4, ascii "mesh")]

def keyMgmtMap : SymbolMap KeyManagement :=
  [(.keyWep, ascii "none"), (.keyIeee8021x, ascii "ieee8021x"), (.keyPsk, ascii "wpa-psk"), (.keySae, ascii "sae"),
    (.keyOwe, ascii "owe"), (.keyEap, ascii "wpa-eap")]

def authProtoWpa : UInt32 := 0x0001

def authProtoRsn : UInt32 := 0x0002

def authProtoMap : SymbolMap UInt32 := [(authProtoWpa, ascii "wpa"), (authProtoRsn, ascii "rsn")]

def authAlgMap : SymbolMap AuthenticationAlgorithm :=
  [(.authAlgWepOpen, ascii "open"), (.authAlgWepShared, ascii "shared"), (.authAlgLeap, ascii "leap")]

def eapTypeMap : SymbolMap EAPType :=
  [(.eapMd5, ascii "md5"), (.eapTls, ascii "tls"), (.eapTtls, ascii "ttls"), (.eapFast, ascii "fast"),
    (.eapLeap, ascii "leap"), (.eapPeap, ascii "peap"), (.eapPwd, ascii "pwd")]

def eapPhase2Map : SymbolMap EAPPhase2 :=
  [(.phase2Md5, ascii "md5"), (.phase2Gtc, ascii "gtc"), (.phase2Pap, ascii "pap"), (.phase2Chap, ascii "chap"),
    (.phase2Mschap, ascii "mschap"), (.phase2MSCHAPv2, ascii "mschapv2"),
    (.phase2MSCHAPv2NoEap, ascii "mschapv2_no_eap")]

/-! ## Variants -/

/-- The names of settings in NetworkManager, `NM_SETTING_…` -/
inductive Key
  | connectionId | connectionUuid | connectionInterfaceName | connectionType
  | wiredAutoNegotiate
  | wirelessSsid | wirelessHidden | wirelessTxPower | wirelessBand | wirelessMode | security
  | wirelessSecurityKeyMgmt | wirelessSecurityProto | wirelessSecurityAuthAlg
  | wirelessSecurityWepKey0 | wirelessSecurityWepKey1 | wirelessSecurityWepKey2 | wirelessSecurityWepKey3
  | wirelessSecurityWepTxKeyidx | wirelessSecurityWepKeyType | wirelessSecurityPsk
  | eap | phase2Auth | anonymousIdentity | identity | password | caCert | caCertPassword | clientCert
  | clientCertPassword | pacFile | phase1FastProvisioning
  | ipConfigMethod | ipConfigAddressData | ipConfigGateway | ipConfigDns | ipConfigDnsSearch
  | address | prefixlength
  deriving DecidableEq

/-- The names of the maps of settings, `NM_SETTING_…_SETTING_NAME` -/
inductive SettingName
  | connection | wired | wireless | wirelessSecurity | ieee8021X | ip4Config | ip6Config
  deriving DecidableEq

/-- `Glib::VariantBase`, by its D-Bus type. -/
inductive Variant
  | string (s : Bytes)
  | boolean (b : Bool)
  | uint32 (n : UInt32)
  | byteArray (b : Bytes)
  | strings (l : List Bytes)
  | uint32s (l : List UInt32)
  | byteArrays (l : List Bytes)
  | dicts (l : List (List (Key × Variant)))

abbrev VariantMap := List (Key × Variant)

abbrev SettingsMap := List (SettingName × VariantMap)

/-- `g_variant_get_bytestring` -/
def bytestring (b : Bytes) : Bytes := if b.getLast? = some 0 then b.takeWhile (· ≠ 0) else []

namespace Variant

/-- To `std::string`, which byte arrays are as well. -/
def toText : Variant → Option Bytes
  | string s => some s
  | byteArray b => some (bytestring b)
  | _ => none

def toBoolean : Variant → Option Bool
  | boolean b => some b
  | _ => none

def toUint : Variant → Option UInt32
  | uint32 n => some n
  | _ => none

def toBytes : Variant → Option Bytes
  | byteArray b => some b
  | _ => none

def toTexts : Variant → Option (List Bytes)
  | strings l => some l
  | _ => none

def toUints : Variant → Option (List UInt32)
  | uint32s l => some l
  | _ => none

def toByteArrays : Variant → Option (List Bytes)
  | byteArrays l => some l
  | _ => none

def toDicts : Variant → Option (List VariantMap)
  | dicts l => some l
  | _ => none

end Variant

/-- `extract_value`: what is there under a key, if it can be cast. -/
def extractValue {α : Type} (cast : Variant → Option α) (map : VariantMap) (key : Key) : Option α :=
  (map.lookup key).bind cast

def extractMapped {κ : Type} (lookup_map : SymbolMap κ) (map : VariantMap) (key : Key) : Option κ :=
  (extractValue Variant.toText map key).bind lookup_map.tryFromString

/-- `file://` -/
def uriPrefixFile : Bytes := ascii "file://"

def extractFilepath (map : VariantMap) (key : Key) : Option Bytes :=
  match extractValue Variant.toText map key with
  | some s => if uriPrefixFile.isPrefixOf s then some (s.drop uriPrefixFile.length) else none
  | none => none

/-- `std::map::emplace`, of a value that may be left out. -/
def emplace (map : VariantMap) (key : Key) (value : Option Variant) : VariantMap :=
  match value with
  | some v => if (map.lookup key).isSome then map else map ++ [(key, v)]
  | none => map

/-- `insert_value`: the default of the type is left out. -/
def insertValue {α : Type} [DecidableEq α] (wrap : α → Variant) (default : α) (map : VariantMap) (key : Key) (value : α) :
    VariantMap := emplace map key (if value = default then none else some (wrap value))

def insertText : VariantMap → Key → Bytes → VariantMap := insertValue .string []

def insertBoolean : VariantMap → Key → Bool → VariantMap := insertValue .boolean false

def insertUint : VariantMap → Key → UInt32 → VariantMap := insertValue .uint32 0

def insertBytes : VariantMap → Key → Bytes → VariantMap := insertValue .byteArray []

def insertTexts : VariantMap → Key → List Bytes → VariantMap := insertValue .strings []

def insertUints : VariantMap → Key → List UInt32 → VariantMap := insertValue .uint32s []

def insertByteArrays : VariantMap → Key → List Bytes → VariantMap := insertValue .byteArrays []

def insertMapped {κ : Type} [DecidableEq κ] (lookup_map : SymbolMap κ) (map : VariantMap) (key : Key) (value : κ) : VariantMap :=
  match lookup_map.tryToString value with
  | some symbol => insertText map key symbol
  | none => map

/-- `inet_pton` and `inet_ntop` -/
structure Inet where
  pton : Bytes → Option UInt32
  ntop : UInt32 → Option Bytes
  pton6 : Bytes → Option Bytes
  ntop6 : Bytes → Option Bytes

/-! ## Building settings -/

def fileUrl (path : Bytes) : Bytes := uriPrefixFile ++ path ++ [0]

def insertConnection (data : ConnectionData) (map : VariantMap) : VariantMap :=
  let map := insertText map .connectionId data.id
  let map := insertText map .connectionUuid data.uuid
  let map := insertText map .connectionInterfaceName data.interface
  insertMapped connectionTypeMap map .connectionType data.type

def insertWired (wired : WiredConnectionData) (map : VariantMap) : VariantMap :=
  insertBoolean map .wiredAutoNegotiate wired.autoNegotiate

def insertWireless (wireless : WirelessConnectionData) (map : VariantMap) : VariantMap :=
  let map := insertBytes map .wirelessSsid wireless.ssid
  let map := insertBoolean map .wirelessHidden wireless.hidden
  let map := insertUint map .wirelessTxPower wireless.txPower
  let map :=
    if wireless.band.getD .bandAny ≠ .bandAny then
      insertMapped bandSelectionMap map .wirelessBand (wireless.band.getD .bandAny)
    else map
  if wireless.keyMgmtType ≠ .keyEmpty then insertText map .security (ascii "802-11-wireless-security") else map

def wepKeyNames : List Key :=
  [.wirelessSecurityWepKey0, .wirelessSecurityWepKey1, .wirelessSecurityWepKey2, .wirelessSecurityWepKey3]

/-- Without a result there are too few keys, and `at` throws. -/
def insertWep (wep : WEPData) (map : VariantMap) : Option VariantMap := do
  let map :=
    if wep.authAlg ≠ .authAlgNone then insertMapped authAlgMap map .wirelessSecurityAuthAlg wep.authAlg else map
  let map ← wepKeyNames.zipIdx.foldlM
    (fun map e => (wep.keys[e.2]?).map fun key => insertText map e.1 (byteStream key)) map
  let map := insertUint map .wirelessSecurityWepTxKeyidx wep.keyIdx
  some (if wep.keyType ≠ nmWepKeyTypeUnknown then
      insertUint map .wirelessSecurityWepKeyType (UInt32.ofInt wep.keyType)
    else map)

def insertWirelessSecurity (wireless : WirelessConnectionData) (map : VariantMap) : Option VariantMap :=
  let map := insertMapped keyMgmtMap map .wirelessSecurityKeyMgmt wireless.keyMgmtType
  let map :=
    if wireless.authProtos ≠ 0 then
      insertTexts map .wirelessSecurityProto
        ((authProtoMap.filter fun e => wireless.authProtos &&& e.1 ≠ 0).map Prod.snd)
    else map
  match wireless.auth with
  | .wep wep => insertWep wep map
  | .wpa wpa => some (insertText map .wirelessSecurityPsk wpa.psk)
  | .eap eap => some (insertMapped authAlgMap map .wirelessSecurityAuthAlg eap.authAlg)
  | .monostate => some map

def insertEap (data : EAPData) (map : VariantMap) : VariantMap :=
  let map :=
    match eapTypeMap.tryToString data.eapType with
    | some eapScheme => insertTexts map .eap [eapScheme]
    | none => map
  let map :=
    if data.eapPhase2 ≠ .phase2None then insertMapped eapPhase2Map map .phase2Auth data.eapPhase2 else map
  let map := insertText map .anonymousIdentity data.anonymousIdentity
  let map := insertText map .identity data.identity
  let map := insertText map .password data.password
  let map := if data.caCert ≠ [] then insertBytes map .caCert (fileUrl data.caCert) else map
  let map := insertText map .caCertPassword data.caCertPassword
  let map := if data.clientCert ≠ [] then insertBytes map .clientCert (fileUrl data.clientCert) else map
  let map := insertText map .clientCertPassword data.clientCertPassword
  let map := insertText map .pacFile data.pacFile
  if data.fastProvisioning ≠ .provisioningNone then
    let n := data.fastProvisioning.number - FASTProvisioning.provisioningDisabled.number
    insertText map .phase1FastProvisioning (decimal n.toNat)
  else map

def wrapAddressData (data : List AddressData) : Variant :=
  .dicts (data.map fun item => [(.address, .string item.address), (.prefixlength, .uint32 item.prefixlength)])

def insertIpconfig (ipconfig : IPConfigData) (map : VariantMap) : VariantMap :=
  let map := insertMapped ipconfigMethodMap map .ipConfigMethod ipconfig.method
  let map := emplace map .ipConfigAddressData (some (wrapAddressData ipconfig.addressData))
  let map := insertText map .ipConfigGateway ipconfig.gateway
  insertTexts map .ipConfigDnsSearch ipconfig.searches

variable (net : Inet)

def insertIp4config (ipconfig : IPConfigData) (map : VariantMap) : VariantMap :=
  insertUints (insertIpconfig ipconfig map) .ipConfigDns (ipconfig.dns.map fun dns => (net.pton dns).getD 0)

def insertIp6config (ipconfig : IPConfigData) (map : VariantMap) : VariantMap :=
  insertByteArrays (insertIpconfig ipconfig map) .ipConfigDns
    (ipconfig.dns.map fun dns => (net.pton6 dns).getD (List.replicate 16 0))

def insertSettings (data : ConnectionData) : Option SettingsMap := do
  let specific ←
    match data.specificData with
    | .monostate => some []
    | .wired wired => some [(SettingName.wired, insertWired wired [])]
    | .wireless wireless => do
      let security ←
        if wireless.keyMgmtType ≠ .keyEmpty then
          (insertWirelessSecurity wireless []).map fun map => [(SettingName.wirelessSecurity, map)]
        else some []
      let eap :=
        match wireless.auth with
        | .eap eap => [(SettingName.ieee8021X, insertEap eap [])]
        | _ => []
      some ((SettingName.wireless, insertWireless wireless []) :: security ++ eap)
  some ((SettingName.connection, insertConnection data []) :: specific ++
    [(.ip4Config, insertIp4config net data.ip4config []), (.ip6Config, insertIp6config net data.ip6config [])])

/-! ## Reading settings -/

def extractAddressdata (configs : List VariantMap) : List AddressData :=
  configs.map fun config =>
    { address := (extractValue Variant.toText config .address).getD []
      prefixlength := (extractValue Variant.toUint config .prefixlength).getD 0 }

def extractConnection (map : VariantMap) (data : ConnectionData) : ConnectionData :=
  { data with
    id := (extractValue Variant.toText map .connectionId).getD data.id
    uuid := (extractValue Variant.toText map .connectionUuid).getD data.uuid
    interface := (extractValue Variant.toText map .connectionInterfaceName).getD data.interface }

def extractWired (map : VariantMap) (wired : WiredConnectionData) : WiredConnectionData where
  autoNegotiate := (extractValue Variant.toBoolean map .wiredAutoNegotiate).getD wired.autoNegotiate

def extractWireless (map : VariantMap) (wireless : WirelessConnectionData) : WirelessConnectionData :=
  { wireless with
    ssid := (extractValue Variant.toBytes map .wirelessSsid).getD wireless.ssid
    hidden := (extractValue Variant.toBoolean map .wirelessHidden).getD wireless.hidden
    txPower := (extractValue Variant.toUint map .wirelessTxPower).getD wireless.txPower
    band := extractMapped bandSelectionMap map .wirelessBand
    mode := (extractMapped apModeMap map .wirelessMode).getD wireless.mode }

def authDataWep (map : VariantMap) : WEPData :=
  let wep : WEPData := {}
  { authAlg := (extractMapped authAlgMap map .wirelessSecurityAuthAlg).getD wep.authAlg
    keys := wepKeyNames.map fun name => (extractValue Variant.toText map name).getD []
    keyIdx := (extractValue Variant.toUint map .wirelessSecurityWepTxKeyidx).getD wep.keyIdx
    keyType := ((extractValue Variant.toUint map .wirelessSecurityWepKeyType).map fun n => (n.toNat : Int)).getD wep.keyType }

def authDataWpa (map : VariantMap) : WPAData where
  psk := (extractValue Variant.toText map .wirelessSecurityPsk).getD []

def authDataEap (map : VariantMap) : EAPData :=
  let eap : EAPData := {}
  { eap with authAlg := (extractMapped authAlgMap map .wirelessSecurityAuthAlg).getD eap.authAlg }

def extractWirelessSecurity (map : VariantMap) (wireless : WirelessConnectionData) : WirelessConnectionData :=
  let keyMgmt :=
    match extractValue Variant.toText map .wirelessSecurityKeyMgmt with
    | some keyMgmtName => (keyMgmtMap.tryFromString keyMgmtName).getD .keyEmpty
    | none => wireless.keyMgmt
  let protos := (extractValue Variant.toTexts map .wirelessSecurityProto).getD []
  { wireless with
    keyMgmt
    authProtos := (protos.filterMap authProtoMap.tryFromString).foldl (· ||| ·) wireless.authProtos
    auth :=
      match keyMgmt with
      | .keyWep => .wep (authDataWep map)
      | .keyPsk | .keySae => .wpa (authDataWpa map)
      | .keyIeee8021x | .keyEap => .eap (authDataEap map)
      | _ => wireless.auth }

/-- `convert_to<uint>`, which throws without a result. -/
def convertToUint32 (s : Bytes) : Option UInt32 :=
  (convertToUint s).bind fun n => if n.toNat < 2 ^ 32 then some n.toUInt32 else none

/-- Without a result an exception is thrown. -/
def extractEap (map : VariantMap) (data : EAPData) : Option EAPData := do
  let eapType ←
    match extractValue Variant.toTexts map .eap with
    | some eapSchemes => (eapSchemes[0]?).map fun s => (eapTypeMap.tryFromString s).getD .eapNone
    | none => some data.eapType
  let s := (extractValue Variant.toText map .phase1FastProvisioning).getD []
  let fastProvisioning ←
    if s ≠ [] then
      (convertToUint32 s).map fun n => cast (α := FASTProvisioning) (n.toNat + FASTProvisioning.provisioningDisabled.number)
    else some data.fastProvisioning
  some { data with
    eapType
    eapPhase2 := (extractMapped eapPhase2Map map .phase2Auth).getD data.eapPhase2
    anonymousIdentity := (extractValue Variant.toText map .anonymousIdentity).getD data.anonymousIdentity
    identity := (extractValue Variant.toText map .identity).getD data.identity
    password := (extractValue Variant.toText map .password).getD data.password
    caCert := (extractFilepath map .caCert).getD data.caCert
    caCertPassword := (extractValue Variant.toText map .clientCertPassword).getD data.caCertPassword
    clientCert := (extractFilepath map .clientCert).getD data.clientCert
    clientCertPassword := (extractValue Variant.toText map .clientCertPassword).getD data.clientCertPassword
    pacFile := (extractFilepath map .pacFile).getD data.pacFile
    fastProvisioning }

def extractIpconfig (map : VariantMap) (ipconfig : IPConfigData) : IPConfigData :=
  { ipconfig with
    method := (extractMapped ipconfigMethodMap map .ipConfigMethod).getD ipconfig.method
    addressData := extractAddressdata ((extractValue Variant.toDicts map .ipConfigAddressData).getD [])
    gateway := (extractValue Variant.toText map .ipConfigGateway).getD ipconfig.gateway
    searches := (extractValue Variant.toTexts map .ipConfigDnsSearch).getD ipconfig.searches }

def extractIp4config (map : VariantMap) (ipconfig : IPConfigData) : IPConfigData :=
  { extractIpconfig map ipconfig with
    dns := ((extractValue Variant.toUints map .ipConfigDns).getD []).filterMap net.ntop }

def extractIp6config (map : VariantMap) (ipconfig : IPConfigData) : IPConfigData :=
  { extractIpconfig map ipconfig with
    dns := ((extractValue Variant.toByteArrays map .ipConfigDns).getD []).filterMap net.ntop6 }

/-- The settings of a wireless connection, and of its security. -/
def extractWirelessSettings (map : SettingsMap) (settings : VariantMap) : Option WirelessConnectionData :=
  let wireless := extractWireless settings {}
  let wireless :=
    match map.lookup .wirelessSecurity with
    | some security => extractWirelessSecurity security wireless
    | none => wireless
  match map.lookup .ieee8021X, wireless.auth with
  | some settings, .eap auth => (extractEap settings auth).map fun eap => { wireless with auth := .eap eap }
  | _, _ => some wireless

/-- What is in a fresh `WiredConnectionData` is left to chance. -/
def extractSettings (uninitialized : Bool) (map : SettingsMap) (data : ConnectionData) : Option ConnectionData :=
  match map.lookup .connection with
  | none => some data
  | some settings => do
    let data := extractConnection settings data
    let specificData ←
      match map.lookup .wired, map.lookup .wireless with
      | some settings, _ => some (.wired (extractWired settings { autoNegotiate := uninitialized }))
      | none, some settings => (extractWirelessSettings map settings).map .wireless
      | none, none => some data.specificData
    some { data with
      specificData
      ip4config :=
        match map.lookup .ip4Config with
        | some settings => extractIp4config net settings data.ip4config
        | none => data.ip4config
      ip6config :=
        match map.lookup .ip6Config with
        | some settings => extractIp6config net settings data.ip6config
        | none => data.ip6config }

/-! ## What was inserted -/

section
variable {map : VariantMap} {j k : Key}

theorem lookup_append (m l : VariantMap) : (m ++ l).lookup j = (m.lookup j).or (l.lookup j) := by
  induction m with
  | nil => simp
  | cons e m ih =>
    rw [List.cons_append, List.lookup_cons, List.lookup_cons]
    split <;> simp [ih]

theorem lookup_singleton (v : Variant) : ([(k, v)] : VariantMap).lookup j = if j = k then some v else none := by
  by_cases h : j = k <;> simp [h]

@[simp]
theorem lookup_emplace (value : Option Variant) :
    (emplace map k value).lookup j = if j = k then (map.lookup k).or value else map.lookup j := by
  cases value with
  | none => by_cases h : j = k <;> simp [emplace, h]
  | some v =>
    unfold emplace
    by_cases h : j = k
    · subst h
      cases hm : map.lookup j <;> simp [hm, lookup_append]
    · cases hm : map.lookup k <;> simp [h, lookup_append, lookup_singleton]

/-- What `insert_value` puts into a map. -/
def present {α : Type} [DecidableEq α] (wrap : α → Variant) (default value : α) : Option Variant :=
  if value = default then none else some (wrap value)

theorem insertValue_eq {α : Type} [DecidableEq α] (wrap : α → Variant) (default value : α) :
    insertValue wrap default map k value = emplace map k (present wrap default value) := rfl

/-- What is left out is the default. -/
theorem read_present {α : Type} [DecidableEq α] {wrap : α → Variant} {read : Variant → Option α} {default value : α}
    (h : read (wrap value) = some value) : ((present wrap default value).bind read).getD default = value := by
  unfold present
  split_ifs with hd
  · exact hd.symm
  · simp [h]

theorem insertMapped_eq {κ : Type} [DecidableEq κ] (lookup_map : SymbolMap κ) (value : κ) :
    insertMapped lookup_map map k value = emplace map k ((lookup_map.tryToString value).bind (present .string [])) := by
  unfold insertMapped
  cases lookup_map.tryToString value <;> rfl

@[simp]
theorem lookup_ite {c : Prop} [Decidable c] (m l : VariantMap) :
    (if c then m else l).lookup j = if c then m.lookup j else l.lookup j := by
  split_ifs <;> rfl

/-- The path in a file URL. -/
def filePath (s : Bytes) : Option Bytes :=
  if uriPrefixFile.isPrefixOf s then some (s.drop uriPrefixFile.length) else none

theorem extractFilepath_eq : extractFilepath map k = (extractValue Variant.toText map k).bind filePath := by
  unfold extractFilepath
  cases extractValue Variant.toText map k <;> rfl

end

attribute [simp] extractValue extractMapped insertText insertBoolean insertUint insertBytes insertTexts insertUints
  insertByteArrays insertValue_eq insertMapped_eq extractFilepath_eq

@[simp]
theorem toText_present (s : Bytes) : ((present .string [] s).bind Variant.toText).getD [] = s := read_present rfl

@[simp]
theorem toBoolean_present (b : Bool) : ((present .boolean false b).bind Variant.toBoolean).getD false = b := read_present rfl

@[simp]
theorem toUint_present (n : UInt32) : ((present .uint32 0 n).bind Variant.toUint).getD 0 = n := read_present rfl

@[simp]
theorem toBytes_present (b : Bytes) : ((present .byteArray [] b).bind Variant.toBytes).getD [] = b := read_present rfl

@[simp]
theorem toTexts_present (l : List Bytes) : ((present .strings [] l).bind Variant.toTexts).getD [] = l := read_present rfl

@[simp]
theorem toUints_present (l : List UInt32) : ((present .uint32s [] l).bind Variant.toUints).getD [] = l := read_present rfl

@[simp]
theorem toByteArrays_present (l : List Bytes) : ((present .byteArrays [] l).bind Variant.toByteArrays).getD [] = l :=
  read_present rfl

theorem extractConnection_insertConnection (data : ConnectionData) :
    extractConnection (insertConnection data []) {} = { id := data.id, uuid := data.uuid, interface := data.interface } := by
  simp [extractConnection, insertConnection]

/-- No symbol is empty, and no two of them are read alike. -/
def SymbolMap.Unambiguous {κ : Type} (map : SymbolMap κ) : Prop :=
  (∀ e ∈ map, e.2 ≠ []) ∧ (map.map fun e => e.2.map toLower).Nodup

instance {κ : Type} (map : SymbolMap κ) : Decidable map.Unambiguous := inferInstanceAs (Decidable (_ ∧ _))

theorem SymbolMap.restored {κ : Type} [DecidableEq κ] {lookup_map : SymbolMap κ} (h : lookup_map.Unambiguous) {key : κ}
    {symbol : Bytes} (hs : lookup_map.tryToString key = some symbol) :
    present .string [] symbol = some (.string symbol) ∧ lookup_map.tryFromString symbol = some key := by
  obtain ⟨⟨key', symbol'⟩, hfind, rfl⟩ := Option.map_eq_some_iff.mp hs
  have hmem := List.mem_of_find?_eq_some hfind
  obtain rfl : key' = key := by simpa using List.find?_some hfind
  refine ⟨if_neg (h.1 _ hmem), ?_⟩
  unfold tryFromString
  cases hback : lookup_map.find? fun e => e.2.map toLower = symbol'.map toLower with
  | none => exact absurd (List.find?_eq_none.mp hback _ hmem) (by simp)
  | some e =>
    have hlower : e.2.map toLower = symbol'.map toLower := by simpa using List.find?_some hback
    have := List.inj_on_of_nodup_map h.2 (List.mem_of_find?_eq_some hback) hmem hlower
    rw [this]
    rfl

/-- What is known comes back from a setting. -/
theorem SymbolMap.restored_bind {κ : Type} [DecidableEq κ] {lookup_map : SymbolMap κ} (h : lookup_map.Unambiguous) (key : κ) :
    (((lookup_map.tryToString key).bind (present .string [])).bind Variant.toText).bind lookup_map.tryFromString =
      (lookup_map.tryToString key).map fun _ => key := by
  cases hs : lookup_map.tryToString key with
  | none => rfl
  | some symbol =>
    obtain ⟨hpresent, hback⟩ := SymbolMap.restored h hs
    simp only [Option.bind_some, hpresent, Variant.toText, hback, Option.map_some]

theorem unambiguous_maps : ipconfigMethodMap.Unambiguous ∧ bandSelectionMap.Unambiguous ∧ keyMgmtMap.Unambiguous ∧
    authAlgMap.Unambiguous ∧ eapTypeMap.Unambiguous ∧ eapPhase2Map.Unambiguous := by
  decide +kernel

theorem band_restored (band : Option WirelessBandSelection) :
    (((if band.getD .bandAny = .bandAny then none else
        (bandSelectionMap.tryToString (band.getD .bandAny)).bind (present .string [])).bind Variant.toText).bind
      bandSelectionMap.tryFromString) = band.filter (· ≠ .bandAny) := by
  have hback := SymbolMap.restored_bind unambiguous_maps.2.1 (band.getD .bandAny)
  split_ifs with hany
  · cases band with
    | none => rfl
    | some b =>
      obtain rfl : b = .bandAny := hany
      rfl
  · rw [hback]
    cases band with
    | none => exact absurd rfl hany
    | some b => cases b <;> first | rfl | exact absurd rfl hany

theorem extractWireless_insertWireless (w : WirelessConnectionData) :
    extractWireless (insertWireless w []) {} =
      { ssid := w.ssid, hidden := w.hidden, txPower := w.txPower, band := w.band.filter (· ≠ .bandAny) } := by
  simp [extractWireless, insertWireless, band_restored]

theorem method_restored (method : IPConfigMethod) :
    ((((ipconfigMethodMap.tryToString method).bind (present .string [])).bind Variant.toText).bind
      ipconfigMethodMap.tryFromString).getD .methodNone = method := by
  rw [SymbolMap.restored_bind unambiguous_maps.1]
  cases method <;> rfl

theorem addressdata_restored (data : List AddressData) : extractAddressdata ((wrapAddressData data).toDicts.getD []) = data := by
  simp only [extractAddressdata, wrapAddressData, Variant.toDicts, Option.getD_some, List.map_map]
  exact List.map_id data

theorem extractIpconfig_insertIpconfig (c : IPConfigData) (dns : Option Variant) :
    extractIpconfig (emplace (insertIpconfig c []) .ipConfigDns dns) {} = { c with dns := [] } := by
  simp [extractIpconfig, insertIpconfig, method_restored, addressdata_restored]

theorem dns_restored {α : Type} {pton : Bytes → Option α} {ntop : α → Option Bytes} {default : α} {dns : List Bytes}
    (h : ∀ d ∈ dns, (pton d).bind ntop = some d) : (dns.map fun d => (pton d).getD default).filterMap ntop = dns := by
  rw [List.filterMap_map]
  induction dns with
  | nil => rfl
  | cons d dns ih =>
    rw [List.forall_mem_cons] at h
    obtain ⟨a, ha, hd⟩ := Option.bind_eq_some_iff.1 h.1
    rw [List.filterMap_cons_some (b := d) (by simp [ha, hd]), ih h.2]

theorem extractIp4config_insertIp4config {net : Inet} {c : IPConfigData} (h : ∀ d ∈ c.dns, (net.pton d).bind net.ntop = some d) :
    extractIp4config net (insertIp4config net c []) {} = c := by
  have hdns : (insertIpconfig c []).lookup .ipConfigDns = none := by simp [insertIpconfig]
  simp only [extractIp4config, insertIp4config, insertUints, insertValue_eq, extractIpconfig_insertIpconfig]
  simp [hdns, dns_restored h]

theorem extractIp6config_insertIp6config {net : Inet} {c : IPConfigData} (h : ∀ d ∈ c.dns, (net.pton6 d).bind net.ntop6 = some d) :
    extractIp6config net (insertIp6config net c []) {} = c := by
  have hdns : (insertIpconfig c []).lookup .ipConfigDns = none := by simp [insertIpconfig]
  simp only [extractIp6config, insertIp6config, insertByteArrays, insertValue_eq, extractIpconfig_insertIpconfig]
  simp [hdns, dns_restored h]

/-! ## Authentication -/

theorem convertToUint32_decimal {n : ℕ} (h : n < 2 ^ 32) : convertToUint32 (decimal n) = some n.toUInt32 := by
  have hn : n.toUInt64.toNat = n := Nat.mod_eq_of_lt (by omega)
  have hread := convertToUint_decimal n.toUInt64
  rw [hn] at hread
  have h32 : n.toUInt64.toUInt32 = n.toUInt32 := by
    rw [← UInt32.toNat_inj, UInt64.toNat_toUInt32, hn]
    rfl
  simp only [convertToUint32, hread, Option.bind_some, hn, if_pos h, h32]

theorem provisioning_restored {p : FASTProvisioning} (h : p ≠ .provisioningNone) :
    (convertToUint32 (decimal (p.number - FASTProvisioning.provisioningDisabled.number).toNat)).map
      (fun n => (cast (n.toNat + FASTProvisioning.provisioningDisabled.number) : FASTProvisioning)) = some p := by
  cases p with
  | provisioningNone => exact absurd rfl h
  | _ => rw [convertToUint32_decimal (by decide)]; rfl

theorem present_cons (x : Bytes) (l : List Bytes) : present .strings [] (x :: l) = some (.strings (x :: l)) := if_neg (by simp)

theorem phase2_restored (p : EAPPhase2) :
    (((if p = .phase2None then none else (eapPhase2Map.tryToString p).bind (present .string [])).bind Variant.toText).bind
      eapPhase2Map.tryFromString).getD .phase2None = p := by
  have hback := SymbolMap.restored_bind unambiguous_maps.2.2.2.2.2 p
  split_ifs with hp
  · exact hp.symm
  · rw [hback]
    cases p <;> rfl

theorem eap_type_restored (t : EAPType) :
    ((eapTypeMap.tryToString t).map fun s => (eapTypeMap.tryFromString s).getD .eapNone).getD .eapNone = t := by
  cases hs : eapTypeMap.tryToString t with
  | none => cases t <;> first | rfl | exact absurd hs nofun
  | some symbol => rw [Option.map_some, (SymbolMap.restored unambiguous_maps.2.2.2.2.1 hs).2]; rfl

theorem filePath_fileUrl {path : Bytes} (h : 0 ∉ path) : filePath (bytestring (fileUrl path)) = some path := by
  have hurl : ∀ b ∈ uriPrefixFile ++ path, b ≠ 0 := by
    intro b hb
    rcases List.mem_append.1 hb with hb | hb
    · exact (by decide +kernel : ∀ b ∈ uriPrefixFile, b ≠ 0) b hb
    · exact fun hz => h (hz ▸ hb)
  have : bytestring (fileUrl path) = uriPrefixFile ++ path := by
    unfold bytestring fileUrl
    rw [if_pos (by simp), List.takeWhile_append_of_pos (by simpa using hurl)]
    simp
  rw [this, filePath, if_pos (by simp), List.drop_left]

/-- A path that is not there is empty. -/
theorem path_restored {path : Bytes} (h : 0 ∉ path) :
    (((if path = [] then none else present .byteArray [] (fileUrl path)).bind Variant.toText).bind filePath).getD [] = path := by
  split_ifs with hp
  · exact hp.symm
  · have : fileUrl path ≠ [] := by simp [fileUrl]
    simp [present, this, Variant.toText, filePath_fileUrl h]

theorem pac_file_restored (path : Bytes) :
    (((present .string [] path).bind Variant.toText).bind filePath).getD [] = (filePath path).getD [] := by
  unfold present
  split_ifs with hp
  · rw [hp]
    rfl
  · rfl

theorem extractEap_insertEap {c : EAPData} (a : AuthenticationAlgorithm) (hca : 0 ∉ c.caCert) (hclient : 0 ∉ c.clientCert) :
    extractEap (insertEap c []) { authAlg := a } =
      some { c with
        authAlg := a
        domain := []
        caCertPassword := c.clientCertPassword
        clientCertKey := []
        pacFile := (filePath c.pacFile).getD [] } := by
  have htype := eap_type_restored c.eapType
  unfold extractEap insertEap
  by_cases hp : c.fastProvisioning = .provisioningNone
  · cases h : eapTypeMap.tryToString c.eapType <;> rw [h] at htype <;>
      simp [phase2_restored, path_restored hca, path_restored hclient, pac_file_restored, hp, present_cons, Variant.toTexts, ← htype]
  · have hfast := provisioning_restored hp
    cases h : eapTypeMap.tryToString c.eapType <;> rw [h] at htype <;>
      simp [phase2_restored, path_restored hca, path_restored hclient, pac_file_restored, hp, hfast, decimal_ne_nil,
        present_cons, Variant.toTexts, ← htype]

/-! ## Security of a wireless connection -/

theorem bit_eq (n : UInt32) {m : UInt32} {i : ℕ} (hm : m.toNat = 2 ^ i) : n &&& m = 0 ∨ n &&& m = m := by
  rw [← UInt32.toNat_inj, ← UInt32.toNat_inj, UInt32.toNat_and, hm, Nat.and_two_pow]
  cases n.toNat.testBit i <;> simp

theorem protos_restored (protos : UInt32) :
    ((((if protos = 0 then none else
      present .strings [] ((authProtoMap.filter fun e => !decide (protos &&& e.1 = 0)).map Prod.snd)).bind Variant.toTexts).getD []).filterMap
      authProtoMap.tryFromString).foldl (· ||| ·) 0 = protos &&& (authProtoWpa ||| authProtoRsn) := by
  have hread : ∀ l : List Bytes, ((if protos = 0 then none else present .strings [] l).bind Variant.toTexts).getD [] =
      if protos = 0 then [] else l := by
    intro l
    split_ifs <;> simp
  have hor : protos &&& (authProtoWpa ||| authProtoRsn) = protos &&& authProtoWpa ||| protos &&& authProtoRsn := by
    simp only [← UInt32.toNat_inj, UInt32.toNat_and, UInt32.toNat_or, Nat.and_or_distrib_left]
  rw [hread, hor]
  have hwpa := bit_eq protos (m := authProtoWpa) (i := 0) rfl
  have hrsn := bit_eq protos (m := authProtoRsn) (i := 1) rfl
  split_ifs with hz
  · simp [hz]
  · have hw : authProtoWpa ≠ 0 := by decide
    have hr : authProtoRsn ≠ 0 := by decide
    rcases hwpa with hwpa | hwpa <;> rcases hrsn with hrsn | hrsn <;>
      simp only [authProtoMap, List.filter_cons, List.filter_nil, hwpa, hrsn, hw, hr, decide_true, decide_false,
        Bool.not_true, Bool.not_false, if_true] <;>
      decide +kernel

theorem key_mgmt_restored {k : KeyManagement} (h : k ≠ .keyEmpty) :
    ∃ name, ((keyMgmtMap.tryToString k).bind (present .string [])).bind Variant.toText = some name ∧
      keyMgmtMap.tryFromString name = some k := by
  cases k with
  | keyEmpty => exact absurd rfl h
  | _ => exact ⟨_, rfl, (SymbolMap.restored unambiguous_maps.2.2.1 rfl).2⟩

theorem auth_alg_restored (a : AuthenticationAlgorithm) :
    ((((authAlgMap.tryToString a).bind (present .string [])).bind Variant.toText).bind authAlgMap.tryFromString).getD
      .authAlgNone = a := by
  rw [SymbolMap.restored_bind unambiguous_maps.2.2.2.1]
  cases a <;> rfl

theorem ite_auth_alg {a : AuthenticationAlgorithm} (f : Bytes → Option Variant) :
    (if a = .authAlgNone then none else (authAlgMap.tryToString a).bind f) = (authAlgMap.tryToString a).bind f := by
  cases a <;> rfl

theorem key_type_restored {n : Int} (h₀ : 0 ≤ n) (h₂ : n ≤ 2) :
    ((if n = nmWepKeyTypeUnknown then none else present .uint32 0 (UInt32.ofInt n)).bind
      fun v => v.toUint.map fun m => (m.toNat : Int)).getD nmWepKeyTypeKey = if n = nmWepKeyTypeUnknown then nmWepKeyTypeKey else n := by
  have : n = 0 ∨ n = 1 ∨ n = 2 := by omega
  rcases this with rfl | rfl | rfl <;> decide +kernel

theorem extractWirelessSecurity_wep {w wireless : WirelessConnectionData} {wep : WEPData} {a b c d : Bytes} {l : List Bytes}
    (hauth : w.auth = .wep wep) (hk : w.keyMgmtType = .keyWep) (hkeys : wep.keys = a :: b :: c :: d :: l)
    (h₀ : 0 ≤ wep.keyType) (h₂ : wep.keyType ≤ 2) (hp : wireless.authProtos = 0) :
    (insertWirelessSecurity w []).map (extractWirelessSecurity · wireless) = some
      { wireless with
        keyMgmt := .keyWep
        authProtos := w.authProtos &&& (authProtoWpa ||| authProtoRsn)
        auth := .wep
          { wep with
            keys := [a, b, c, d].map byteStream
            keyType := if wep.keyType = nmWepKeyTypeUnknown then nmWepKeyTypeKey else wep.keyType } } := by
  obtain ⟨name, hname, hfrom⟩ := key_mgmt_restored (show KeyManagement.keyWep ≠ .keyEmpty by decide)
  simp [insertWirelessSecurity, insertWep, hauth, hk, hkeys, wepKeyNames, extractWirelessSecurity, hname, hfrom, authDataWep,
    hp, protos_restored, ite_auth_alg, auth_alg_restored, key_type_restored h₀ h₂]

theorem insertWirelessSecurity_none {w : WirelessConnectionData} {wep : WEPData} (hauth : w.auth = .wep wep)
    (hkeys : wep.keys.length < wepKeyCount) : insertWirelessSecurity w [] = none := by
  have hstep : ∀ map, insertWep wep map = none := by
    intro map
    unfold insertWep
    rcases h : wep.keys with _ | ⟨a, _ | ⟨b, _ | ⟨c, _ | ⟨d, l⟩⟩⟩⟩
    case cons.cons.cons.cons =>
      rw [h] at hkeys
      simp [wepKeyCount] at hkeys
      omega
    all_goals simp [wepKeyNames]
  simp only [insertWirelessSecurity, hauth, hstep]

section
variable {w wireless : WirelessConnectionData} (hp : wireless.authProtos = 0)
include hp

theorem extractWirelessSecurity_wpa {wpa : WPAData} (hauth : w.auth = .wpa wpa)
    (hk : w.keyMgmtType = .keyPsk ∨ w.keyMgmtType = .keySae) :
    (insertWirelessSecurity w []).map (extractWirelessSecurity · wireless) = some
      { wireless with
        keyMgmt := w.keyMgmtType
        authProtos := w.authProtos &&& (authProtoWpa ||| authProtoRsn)
        auth := .wpa wpa } := by
  obtain ⟨name, hname, hfrom⟩ := key_mgmt_restored (k := w.keyMgmtType) (by rcases hk with hk | hk <;> simp [hk])
  rcases hk with hk | hk <;> rw [hk] at hname hfrom <;>
    simp [insertWirelessSecurity, hauth, hk, extractWirelessSecurity, hname, hfrom, authDataWpa, hp, protos_restored]

theorem extractWirelessSecurity_eap {eap : EAPData} (hauth : w.auth = .eap eap)
    (hk : w.keyMgmtType = .keyIeee8021x ∨ w.keyMgmtType = .keyEap) :
    (insertWirelessSecurity w []).map (extractWirelessSecurity · wireless) = some
      { wireless with
        keyMgmt := w.keyMgmtType
        authProtos := w.authProtos &&& (authProtoWpa ||| authProtoRsn)
        auth := .eap { authAlg := eap.authAlg } } := by
  obtain ⟨name, hname, hfrom⟩ := key_mgmt_restored (k := w.keyMgmtType) (by rcases hk with hk | hk <;> simp [hk])
  rcases hk with hk | hk <;> rw [hk] at hname hfrom <;>
    simp [insertWirelessSecurity, hauth, hk, extractWirelessSecurity, hname, hfrom, authDataEap, hp, protos_restored,
      auth_alg_restored]

theorem extractWirelessSecurity_monostate (hauth : w.auth = .monostate) (hk : w.keyMgmtType = .keyOwe) :
    (insertWirelessSecurity w []).map (extractWirelessSecurity · wireless) = some
      { wireless with
        keyMgmt := w.keyMgmtType
        authProtos := w.authProtos &&& (authProtoWpa ||| authProtoRsn) } := by
  obtain ⟨name, hname, hfrom⟩ := key_mgmt_restored (k := w.keyMgmtType) (by simp [hk])
  rw [hk] at hname hfrom
  simp [insertWirelessSecurity, hauth, hk, extractWirelessSecurity, hname, hfrom, hp, protos_restored]

end

/-! ## The round trip -/

section
variable {net : Inet} {data : ConnectionData}

/-- Texts of name servers are those that `inet_ntop` writes. -/
structure CanonicalDns (net : Inet) (data : ConnectionData) : Prop where
  dns4 : ∀ d ∈ data.ip4config.dns, (net.pton d).bind net.ntop = some d
  dns6 : ∀ d ∈ data.ip6config.dns, (net.pton6 d).bind net.ntop6 = some d

theorem lookup_setting (m : SettingsMap) (k j : SettingName) (settings : VariantMap) :
    List.lookup j ((k, settings) :: m) = if j = k then some settings else m.lookup j := by
  by_cases h : j = k
  · simp [h]
  · rw [List.lookup_cons, beq_false_of_ne h, if_neg h]

theorem read_back_wired {wired : WiredConnectionData} (h : CanonicalDns net data) (hd : data.specificData = .wired wired)
    (uninitialized : Bool) :
    (insertSettings net data).bind (extractSettings net uninitialized · {}) = some
      { data with specificData := .wired (extractWired (insertWired wired []) { autoNegotiate := uninitialized }) } := by
  simp [insertSettings, extractSettings, hd, lookup_setting, extractConnection_insertConnection,
    extractIp4config_insertIp4config h.dns4, extractIp6config_insertIp6config h.dns6]

/-- A connection with no security. -/
theorem read_back_open {w : WirelessConnectionData} (h : CanonicalDns net data) (hd : data.specificData = .wireless w)
    (hk : w.keyMgmtType = .keyEmpty) (ha : ∀ eap, w.auth ≠ .eap eap) (uninitialized : Bool) :
    (insertSettings net data).bind (extractSettings net uninitialized · {}) = some
      { data with specificData := .wireless (extractWireless (insertWireless w []) {}) } := by
  cases hauth : w.auth with
  | eap eap => exact absurd hauth (ha eap)
  | _ =>
    simp [insertSettings, extractSettings, hd, hk, hauth, lookup_setting, extractConnection_insertConnection,
      extractWirelessSettings, extractIp4config_insertIp4config h.dns4, extractIp6config_insertIp6config h.dns6]

theorem read_back_secured {w : WirelessConnectionData} (h : CanonicalDns net data) (hd : data.specificData = .wireless w)
    (hk : w.keyMgmtType ≠ .keyEmpty) (ha : ∀ eap, w.auth ≠ .eap eap) (uninitialized : Bool) :
    (insertSettings net data).bind (extractSettings net uninitialized · {}) =
      ((insertWirelessSecurity w []).map (extractWirelessSecurity · (extractWireless (insertWireless w []) {}))).map fun w' =>
        { data with specificData := .wireless w' } := by
  cases hs : insertWirelessSecurity w [] with
  | none => simp [insertSettings, hd, hk, hs]
  | some security =>
    cases hauth : w.auth with
    | eap eap => exact absurd hauth (ha eap)
    | _ =>
      simp [insertSettings, extractSettings, hd, hk, hs, hauth, lookup_setting, extractConnection_insertConnection,
        extractWirelessSettings, extractIp4config_insertIp4config h.dns4, extractIp6config_insertIp6config h.dns6]

theorem read_back_eap {w : WirelessConnectionData} {eap : EAPData} (h : CanonicalDns net data)
    (hd : data.specificData = .wireless w) (hk : w.keyMgmtType ≠ .keyEmpty) (ha : w.auth = .eap eap)
    (uninitialized : Bool) {w' : WirelessConnectionData} {eap' eap'' : EAPData}
    (hw' : (insertWirelessSecurity w []).map (extractWirelessSecurity · (extractWireless (insertWireless w []) {})) = some w')
    (ha' : w'.auth = .eap eap') (he : extractEap (insertEap eap []) eap' = some eap'') :
    (insertSettings net data).bind (extractSettings net uninitialized · {}) = some
      { data with specificData := .wireless { w' with auth := .eap eap'' } } := by
  obtain ⟨security, hs, rfl⟩ := Option.map_eq_some_iff.1 hw'
  simp [insertSettings, extractSettings, hd, hk, hs, ha, lookup_setting, extractConnection_insertConnection,
    extractWirelessSettings, ha', he, extractIp4config_insertIp4config h.dns4, extractIp6config_insertIp6config h.dns6]

end

/-- Authentication data is of the kind that the key management calls for, and
paths are without zeros. -/
def AuthMatches (wireless : WirelessConnectionData) : Prop :=
  match wireless.auth with
  | .monostate => wireless.keyMgmtType = .keyEmpty ∨ wireless.keyMgmtType = .keyOwe
  | .wep wep => wireless.keyMgmtType = .keyWep ∧ 0 ≤ wep.keyType ∧ wep.keyType ≤ 2
  | .wpa _ => wireless.keyMgmtType = .keyPsk ∨ wireless.keyMgmtType = .keySae
  | .eap eap =>
    (wireless.keyMgmtType = .keyIeee8021x ∨ wireless.keyMgmtType = .keyEap) ∧ 0 ∉ eap.caCert ∧ 0 ∉ eap.clientCert

/-- A valid connection, with the authentication data that its key management
calls for. -/
structure WellFormed (net : Inet) (data : ConnectionData) : Prop where
  valid : data.isValid = true
  auth : ∀ w, data.specificData = .wireless w → AuthMatches w
  dns : CanonicalDns net data

/-- As many keys as there are names for, each plain, and of a known type -/
def WepKept (wep : WEPData) : Prop :=
  wep.keys.length = wepKeyCount ∧ (∀ key ∈ wep.keys, ∀ x ∈ key, PlainByte x) ∧ wep.keyType ≠ nmWepKeyTypeUnknown

/-- One password for both certificates, and nothing that is not written or not read -/
def EapKept (eap : EAPData) : Prop :=
  eap.domain = [] ∧ eap.caCertPassword = eap.clientCertPassword ∧ eap.clientCertKey = [] ∧ eap.pacFile = []

def AuthKept : AuthenticationData → Prop
  | .wep wep => WepKept wep
  | .eap eap => EapKept eap
  | _ => True

/-- No mode, no band that stands for any, and only the protocols that have
symbols, with security -/
def WirelessKept (w : WirelessConnectionData) : Prop :=
  w.mode = nm80211ModeUnknown ∧ w.band ≠ some .bandAny ∧
    w.authProtos &&& (authProtoWpa ||| authProtoRsn) = w.authProtos ∧
    (w.keyMgmtType = .keyEmpty → w.authProtos = 0) ∧ AuthKept w.auth

def SettingsKept (data : ConnectionData) : Prop :=
  match data.specificData with
  | .monostate => True
  | .wired wired => wired.autoNegotiate = true
  | .wireless w => WirelessKept w

/-- The connection is what is read back, whatever a fresh one holds. -/
def SettingsRestored (net : Inet) (data : ConnectionData) : Prop :=
  ∀ uninitialized, (insertSettings net data).bind (extractSettings net uninitialized · {}) = some data.withKeyMgmtType

theorem filePath_eq_iff (path : Bytes) : (filePath path).getD [] = path ↔ path = [] := by
  unfold filePath
  split_ifs with h
  · constructor
    · intro heq
      have := congrArg List.length heq
      rw [Option.getD_some, List.length_drop] at this
      have hlen : uriPrefixFile.length = 7 := rfl
      exact List.length_eq_zero_iff.1 (by omega)
    · rintro rfl
      rfl
  · exact eq_comm

theorem filter_band_eq_iff (band : Option WirelessBandSelection) : band.filter (· ≠ .bandAny) = band ↔ band ≠ some .bandAny := by
  rcases band with _ | b
  · simp
  · cases b <;> decide

/-- A flag that is not set is not written. -/
theorem extractWired_insertWired (wired : WiredConnectionData) (u : Bool) :
    extractWired (insertWired wired []) { autoNegotiate := u } = { autoNegotiate := wired.autoNegotiate || u } := by
  obtain ⟨autoNegotiate⟩ := wired
  cases autoNegotiate <;> rfl

theorem wired_restored_iff {net : Inet} {data : ConnectionData} {wired : WiredConnectionData} (h : CanonicalDns net data)
    (hd : data.specificData = .wired wired) : SettingsRestored net data ↔ wired.autoNegotiate = true := by
  have hkeep : data.withKeyMgmtType = { data with specificData := .wired wired } := by
    cases data
    subst hd
    rfl
  unfold SettingsRestored
  simp only [read_back_wired h hd, hkeep, Option.some.injEq, ConnectionData.mk.injEq, true_and, and_true,
    ConnectionSpecificData.wired.injEq, extractWired_insertWired]
  constructor
  · intro hall
    exact (congrArg WiredConnectionData.autoNegotiate (hall true)).symm.trans (Bool.or_true _)
  · intro hauto u
    rw [hauto, Bool.true_or, ← hauto]

theorem wep_eq_iff {wep : WEPData} {a b c d : Bytes} {l : List Bytes} (hkeys : wep.keys = a :: b :: c :: d :: l) :
    { wep with
      keys := [a, b, c, d].map byteStream
      keyType := if wep.keyType = nmWepKeyTypeUnknown then nmWepKeyTypeKey else wep.keyType } = wep ↔ WepKept wep := by
  obtain ⟨authAlg, keys, keyIdx, keyType⟩ := wep
  simp only at hkeys
  subst hkeys
  have hlen : (a :: b :: c :: d :: l).length = wepKeyCount ↔ l = [] := by simp [wepKeyCount]
  have htype : (if keyType = nmWepKeyTypeUnknown then nmWepKeyTypeKey else keyType) = keyType ↔
      keyType ≠ nmWepKeyTypeUnknown := by
    split_ifs with h
    · exact iff_of_false (fun hk => absurd (hk.trans h) (by decide)) (not_not.2 h)
    · exact iff_of_true rfl h
  simp only [WepKept, WEPData.mk.injEq, true_and, htype, hlen, List.map_cons, List.map_nil, List.cons.injEq, byteStream_eq_iff,
    List.forall_mem_cons]
  constructor
  · rintro ⟨⟨ha, hb, hc, hd, rfl⟩, ht⟩
    exact ⟨rfl, ⟨ha, hb, hc, hd, by simp⟩, ht⟩
  · rintro ⟨rfl, ⟨ha, hb, hc, hd, -⟩, ht⟩
    exact ⟨⟨ha, hb, hc, hd, rfl⟩, ht⟩

theorem eap_eq_iff (eap : EAPData) :
    { eap with
      domain := []
      caCertPassword := eap.clientCertPassword
      clientCertKey := []
      pacFile := (filePath eap.pacFile).getD [] } = eap ↔ EapKept eap := by
  obtain ⟨authAlg, eapType, eapPhase2, anonymousIdentity, domain, identity, password, caCert, caCertPassword, clientCert,
    clientCertKey, clientCertPassword, pacFile, fastProvisioning⟩ := eap
  simp only [EapKept, EAPData.mk.injEq, filePath_eq_iff]
  tauto

section
variable {net : Inet} {data : ConnectionData} {w : WirelessConnectionData}

/-- Only the protocols and the authentication data depend on the security. -/
def readBack (w : WirelessConnectionData) (authProtos : UInt32) (auth : AuthenticationData) : WirelessConnectionData where
  ssid := w.ssid
  hidden := w.hidden
  txPower := w.txPower
  band := w.band.filter (· ≠ .bandAny)
  keyMgmt := w.keyMgmtType
  authProtos
  auth

theorem restored_of_read_back (protos : UInt32) (auth : AuthenticationData) (hd : data.specificData = .wireless w)
    (h : ∀ uninitialized, (insertSettings net data).bind (extractSettings net uninitialized · {}) = some
      { data with specificData := .wireless (readBack w protos auth) }) :
    SettingsRestored net data ↔
      w.mode = nm80211ModeUnknown ∧ w.band ≠ some .bandAny ∧ protos = w.authProtos ∧ auth = w.auth := by
  have hkeep : data.withKeyMgmtType = { data with specificData := .wireless { w with keyMgmt := w.keyMgmtType } } := by
    cases data
    subst hd
    rfl
  unfold SettingsRestored
  simp only [h, hkeep, readBack, forall_const, Option.some.injEq, ConnectionData.mk.injEq, ConnectionSpecificData.wireless.injEq,
    WirelessConnectionData.mk.injEq, filter_band_eq_iff, true_and, and_true, eq_comm (a := nm80211ModeUnknown)]
  tauto

theorem secured_restored_iff {auth auth' : AuthenticationData} (hd : data.specificData = .wireless w)
    (hne : w.keyMgmtType ≠ .keyEmpty) (hauth : w.auth = auth) (ha : auth' = auth ↔ AuthKept auth)
    (h : ∀ uninitialized, (insertSettings net data).bind (extractSettings net uninitialized · {}) = some
      { data with specificData := .wireless (readBack w (w.authProtos &&& (authProtoWpa ||| authProtoRsn)) auth') }) :
    SettingsRestored net data ↔ WirelessKept w := by
  rw [restored_of_read_back _ auth' hd h, hauth, ha]
  simp only [WirelessKept, hne, hauth, false_implies, true_and]

variable (h : CanonicalDns net data) (hd : data.specificData = .wireless w)
include h hd

theorem open_restored_iff (hauth : w.auth = .monostate) (hk : w.keyMgmtType = .keyEmpty) :
    SettingsRestored net data ↔ WirelessKept w := by
  rw [restored_of_read_back 0 .monostate hd]
  · constructor
    · rintro ⟨hm, hb, hz, -⟩
      exact ⟨hm, hb, by rw [← hz]; rfl, fun _ => hz.symm, by rw [hauth]; trivial⟩
    · rintro ⟨hm, hb, -, hz, -⟩
      exact ⟨hm, hb, (hz hk).symm, hauth.symm⟩
  · intro u
    rw [read_back_open h hd hk (by simp [hauth]), extractWireless_insertWireless, readBack, hk]

theorem wep_restored_iff {wep : WEPData} (hauth : w.auth = .wep wep) (hk : w.keyMgmtType = .keyWep) (h₀ : 0 ≤ wep.keyType)
    (h₂ : wep.keyType ≤ 2) : SettingsRestored net data ↔ WirelessKept w := by
  have hne : w.keyMgmtType ≠ .keyEmpty := by simp [hk]
  have hread := fun u => read_back_secured h hd hne (by simp [hauth]) u
  rcases Nat.lt_or_ge wep.keys.length wepKeyCount with hlt | hge
  · refine iff_of_false ?_ ?_
    · intro hall
      have := hall true
      rw [hread, insertWirelessSecurity_none hauth hlt] at this
      cases this
    · rintro ⟨-, -, -, -, hkept⟩
      rw [hauth] at hkept
      exact absurd hkept.1 (Nat.ne_of_lt hlt)
  · rcases hkeys : wep.keys with _ | ⟨a, _ | ⟨b, _ | ⟨c, _ | ⟨d, l⟩⟩⟩⟩
    case cons.cons.cons.cons =>
      have ha := wep_eq_iff hkeys
      rw [← AuthenticationData.wep.injEq] at ha
      refine secured_restored_iff hd hne hauth ha fun u => ?_
      rw [hread, extractWirelessSecurity_wep hauth hk hkeys h₀ h₂ (by rw [extractWireless_insertWireless]),
        extractWireless_insertWireless, ← hk]
      rfl
    all_goals
      rw [hkeys] at hge
      exact absurd hge (by simp [wepKeyCount])

theorem wireless_restored_iff (ha : AuthMatches w) : SettingsRestored net data ↔ WirelessKept w := by
  have hp : (extractWireless (insertWireless w []) {}).authProtos = 0 := by rw [extractWireless_insertWireless]
  unfold AuthMatches at ha
  cases hauth : w.auth with
  | monostate =>
    rw [hauth] at ha
    rcases ha with hk | hk
    · exact open_restored_iff h hd hauth hk
    · have hne : w.keyMgmtType ≠ .keyEmpty := by simp [hk]
      refine secured_restored_iff hd hne hauth (iff_of_true rfl trivial) fun u => ?_
      rw [read_back_secured h hd hne (by simp [hauth]), extractWirelessSecurity_monostate hp hauth hk,
        extractWireless_insertWireless]
      rfl
  | wep wep =>
    rw [hauth] at ha
    exact wep_restored_iff h hd hauth ha.1 ha.2.1 ha.2.2
  | wpa wpa =>
    rw [hauth] at ha
    have hne : w.keyMgmtType ≠ .keyEmpty := by rcases ha with hk | hk <;> simp [hk]
    refine secured_restored_iff hd hne hauth (iff_of_true rfl trivial) fun u => ?_
    rw [read_back_secured h hd hne (by simp [hauth]), extractWirelessSecurity_wpa hp hauth ha, extractWireless_insertWireless]
    rfl
  | eap eap =>
    rw [hauth] at ha
    obtain ⟨hk, hca, hclient⟩ := ha
    have hne : w.keyMgmtType ≠ .keyEmpty := by rcases hk with hk | hk <;> simp [hk]
    have ha := eap_eq_iff eap
    rw [← AuthenticationData.eap.injEq] at ha
    refine secured_restored_iff hd hne hauth ha fun u => ?_
    rw [read_back_eap h hd hne hauth u (extractWirelessSecurity_eap hp hauth hk) rfl (extractEap_insertEap _ hca hclient),
      extractWireless_insertWireless]
    rfl

end

/-- What is inserted is read back if and only if the connection is one of those
whose fields are all written, and read as they were written. -/
theorem settings_kept_iff {net : Inet} {data : ConnectionData} (h : WellFormed net data) :
    SettingsRestored net data ↔ SettingsKept data := by
  unfold SettingsKept
  cases hd : data.specificData with
  | monostate =>
    have := h.valid
    simp [ConnectionData.isValid, ConnectionData.type, hd] at this
  | wired wired => exact wired_restored_iff h.dns hd
  | wireless w => exact wireless_restored_iff h.dns hd (h.auth w hd)

/-- One address and its text -/
def inet : Inet where
  pton s := if s = ascii "1.1.1.1" then some 0x01010101 else none
  ntop n := if n = 0x01010101 then some (ascii "1.1.1.1") else none
  pton6 _ := none
  ntop6 _ := none

def homeNetwork (mode : NMEnum) : ConnectionData where
  id := ascii "Home"
  specificData := .wireless { ssid := ascii "Home", mode, keyMgmt := .keyPsk, auth := .wpa { psk := ascii "secret" } }
  ip4config := { method := .methodAuto, dns := [ascii "1.1.1.1"] }
  ip6config := { method := .methodAuto }

theorem homeNetwork_wellFormed (mode : NMEnum) : WellFormed inet (homeNetwork mode) where
  valid := rfl
  auth := by
    rintro w hw
    cases hw
    exact .inl rfl
  dns := ⟨by simp [homeNetwork, inet], by simp [homeNetwork]⟩

theorem homeNetwork_kept : SettingsRestored inet (homeNetwork nm80211ModeUnknown) :=
  (settings_kept_iff (homeNetwork_wellFormed _)).2 ⟨rfl, (Option.some_ne_none _).symm, rfl, fun _ => rfl, trivial⟩

/-- The mode of a connection to an access point, `NM_802_11_MODE_INFRA`, is lost. -/
theorem infra_not_kept : ¬ ∀ net data, WellFormed net data → SettingsRestored net data := by
  intro h
  have hw := homeNetwork_wellFormed 2
  have hkept := (wireless_restored_iff hw.dns rfl (hw.auth _ rfl)).1 (h inet (homeNetwork 2) hw)
  exact absurd hkept.1 (by decide)

end CommonCore.Netconfig.Dbus
