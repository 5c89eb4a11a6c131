import TelnetChat.Containers
import TelnetChat.Net.ServerSocket
import TelnetChat.Pointer.Chat
import TelnetChat.Server.Handshake
import TelnetChat.SplitAccess
import TelnetChat.Vip.Agreement
import TelnetChat.Vip.Bounds
import TelnetChat.Vip.Passes
import TelnetChat.Vip.Progress
