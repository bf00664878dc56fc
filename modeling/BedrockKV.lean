import BedrockKV.AsyncErrors
import BedrockKV.BlockWalk
import BedrockKV.CacheMap
import BedrockKV.Commands
import BedrockKV.CompactionLoop
import BedrockKV.Damage
import BedrockKV.Decode
import BedrockKV.Faults
import BedrockKV.FileNames
import BedrockKV.GcPass
import BedrockKV.LogZeroed
import BedrockKV.ManifestFile
import BedrockKV.MemTable
import BedrockKV.Merging
import BedrockKV.PrefixLoss
import BedrockKV.Reopen
import BedrockKV.Resolve
import BedrockKV.RespCalls
import BedrockKV.RespStream
import BedrockKV.ScanLost
import BedrockKV.SeqOrder
import BedrockKV.ServerRun
import BedrockKV.SharedRing
import BedrockKV.SkipList
import BedrockKV.SstAccess
import BedrockKV.SwitchOn
import BedrockKV.VLogCut
import BedrockKV.VlogOrder
